import SiteTree.Proofs.Walk.Emit

/-!
Which link takes a file up, and what it has done to the files when it succeeds. A file that is made
by the one link that would take it is taken by none.
-/

namespace SiteTree

open SiteTree.Action

variable {options : Options} {kind : LinkKind} {kinds : List LinkKind} {source target : Path} {p : Waiting}
  {w w' : World} {i j n : Nat} {outcome : Outcome} {applied : Bool}

/-- What occurs only once stands in one position. -/
theorem getElem?_inj_of_count {l : List LinkKind} (hc : l.count kind ≤ 1) (hi : l[i]? = some kind)
    (hj : l[j]? = some kind) : i = j := by
  induction l generalizing i j with
  | nil => cases hi
  | cons k l ih =>
      have hnone : k = kind → kind ∉ l := by
        rintro rfl hmem
        have hpos := List.count_pos_iff.2 hmem
        rw [List.count_cons_self] at hc
        omega
      cases i with
      | zero =>
          cases j with
          | zero => rfl
          | succ j =>
              rw [List.getElem?_cons_succ] at hj
              exact absurd (List.mem_of_getElem? hj) (hnone (Option.some.inj hi))
      | succ i =>
          cases j with
          | zero =>
              rw [List.getElem?_cons_succ] at hi
              exact absurd (List.mem_of_getElem? hi) (hnone (Option.some.inj hj))
          | succ j => rw [ih (List.count_le_count_cons.trans hc) hi hj]

theorem LinkKind.name_inj {k l : LinkKind} (h : k.name = l.name) : k = l := by
  cases k <;> cases l <;> simp_all [name]

/-- A file has one extension at most. -/
theorem Path.hasExtension_inj {k l : LinkKind} (hk : source.hasExtension k.name = true)
    (hl : source.hasExtension l.name = true) : k = l := by
  rw [hasExtension, beq_iff_eq] at hk hl
  exact LinkKind.name_inj (Option.some.inj (hk.symm.trans hl))

theorem Path.hasExtension_iff {p : Path} {name : String} (h : p.fileChars? = some name.toList) (ext : String) :
    p.hasExtension ext = true ↔ (Path.cutName name.toList).2 = some ext.toList := by
  rw [hasExtension, extension?, extensionChars?, h, Option.bind_some, beq_iff_eq]
  cases (Path.cutName name.toList).2 with
  | none => simp
  | some e => simp [← String.toList_inj]

theorem LinkKind.offer_declined (options : Options) (target : Path) (w : World)
    (h : source.hasExtension kind.name = false) : (kind.link options).offer source target w = .ok .declined w := by
  cases kind with
  | page => simp only [link, Page.offer, show source.hasExtension "ejs" = false from h]; rfl
  | stylesheet => simp only [link, Stylesheet.offer, show source.hasExtension "css" = false from h]; rfl

theorem Page.offer_ok (hs : source.hasExtension LinkKind.page.name = true)
    (h : offer options source target w = .ok outcome w') : outcome = .produced [placeOf target] ∧
      ∃ text w₁ u, w₁.files = w.files ∧ writeText (placeOf target) text w₁ = .ok u w' := by
  rw [offer, show source.hasExtension "ejs" = true from hs] at h
  obtain ⟨text, w₁, hr, h⟩ := bind_eq_ok h
  obtain ⟨u, w₂, hw, h⟩ := bind_eq_ok h
  cases h
  have hfiles := render_keeps (J := (· = w.files)) source options w rfl
  rw [after_ok hr] at hfiles
  exact ⟨rfl, text, w₁, u, hfiles, hw⟩

theorem Stylesheet.offer_ok (hs : source.hasExtension LinkKind.stylesheet.name = true)
    (h : offer source target w = .ok outcome w') :
    if source.fileName? = some entryName then outcome = .produced [target] ∧
      ∃ text w₁ u, w₁.files = w.files ∧ writeText target text w₁ = .ok u w'
    else outcome = .finished ∧ w' = w := by
  rw [offer, show source.hasExtension "css" = true from hs] at h
  split
  · next hentry =>
    simp only [hentry] at h
    obtain ⟨text, w₁, hb, h⟩ := bind_eq_ok h
    obtain ⟨u, w₂, hw, h⟩ := bind_eq_ok h
    cases h
    have hfiles := bundle_keeps (J := (· = w.files)) source w rfl
    rw [after_ok hb] at hfiles
    exact ⟨rfl, text, w₁, u, hfiles, hw⟩
  · next hentry =>
    simp only [ne_eq, hentry, not_false_eq_true, if_true] at h
    cases h
    exact ⟨rfl, rfl⟩

theorem LinkKind.offer_ne_declined (hs : source.hasExtension kind.name = true) :
    (kind.link options).offer source target w ≠ .ok .declined w' := by
  intro h
  cases kind with
  | page => cases (Page.offer_ok hs h).1
  | stylesheet =>
      have ho := Stylesheet.offer_ok hs h
      split at ho <;> cases ho.1

namespace Chain

variable {announce : String → Waiting → Action Unit}

theorem offerFrom_none (options : Options) (w : World)
    (h : ∀ j k, kinds[j]? = some k → p.producer = some (i + j) ∨ p.source.hasExtension k.name = false) :
    offerFrom p i (kinds.map (·.link options)) w = .ok none w := by
  induction kinds generalizing i with
  | nil => rfl
  | cons k kinds ih =>
      have hrest : offerFrom p (i + 1) (kinds.map (·.link options)) w = .ok none w :=
        ih fun j l hl => by
          rw [Nat.add_right_comm, Nat.add_assoc]
          exact h (j + 1) l hl
      rw [List.map_cons, offerFrom]
      split
      · exact hrest
      · next hp =>
        have hk : p.source.hasExtension k.name = false := (h 0 k rfl).resolve_left hp
        rw [bind_ok (k.offer_declined options p.target w hk)]
        exact hrest

/-- The links before the first one of the kind decline. -/
theorem offerFrom_some (hp : p.producer = none) (hk : kind ∈ kinds) (hs : p.source.hasExtension kind.name = true)
    {r : Option (Nat × String × Outcome)} (h : offerFrom p i (kinds.map (·.link options)) w = .ok r w') :
    ∃ j o, kinds[j]? = some kind ∧ r = some (i + j, kind.name, o) ∧
      (kind.link options).offer p.source p.target w = .ok o w' := by
  induction kinds generalizing i with
  | nil => cases hk
  | cons k kinds ih =>
      rw [List.map_cons, offerFrom, if_neg (by simp [hp])] at h
      by_cases hkind : k = kind
      · subst hkind
        obtain ⟨o, w₁, ho, h⟩ := bind_eq_ok h
        cases o with
        | declined => exact absurd ho (LinkKind.offer_ne_declined hs)
        | finished | produced =>
            cases h
            exact ⟨0, _, rfl, by cases k <;> rfl, ho⟩
      · have hdecline : p.source.hasExtension k.name = false := by
          rw [Bool.eq_false_iff]
          exact fun hc => hkind (Path.hasExtension_inj hc hs)
        rw [bind_ok (k.offer_declined options p.target w hdecline)] at h
        obtain ⟨j, o, hj, hr, ho⟩ := ih ((List.mem_cons.1 hk).resolve_left (Ne.symm hkind)) h
        exact ⟨j + 1, o, hj, by rw [hr, Nat.add_right_comm, Nat.add_assoc], ho⟩

theorem drain_nil {σ ε : Type} (links : List (Link σ ε)) (announce : String → Waiting → EStateM ε σ Unit) (n : Nat)
    (applied : Bool) : drain links announce n [] applied = pure (some applied) := by
  cases n <;> rfl

theorem run_succ (links : List (Link World Failure)) (n : Nat) (source target : Path) :
    run links announce (n + 1) source target = process links announce ⟨source, target, none⟩ >>= fun r =>
      drain links announce n r.2 r.1 := rfl

/-- Files that no link takes end the run as it stands. -/
theorem drain_declined (links : List (Link World Failure)) {queue : List Waiting} {r : Option Bool}
    (hq : ∀ p ∈ queue, ∀ w, offerFrom p 0 links w = .ok none w)
    (h : drain links announce n queue applied w = .ok r w') : w' = w ∧ (r = none ∨ r = some applied) := by
  induction n generalizing queue applied with
  | zero => cases queue <;> cases h <;> simp
  | succ n ih =>
      cases queue with
      | nil => cases h; simp
      | cons p queue =>
          have hp : process links announce p w = .ok (false, []) w := bind_ok (hq p (by simp) w)
          rw [drain, bind_ok hp] at h
          have hdone := ih (fun q hmem => hq q (List.mem_cons_of_mem _ (by simpa using hmem))) h
          simpa using hdone

end Chain

namespace Walk

theorem runChain_declined (h : ∀ kind ∈ options.links, source.hasExtension kind.name = false) (w : World) :
    runChain options source target w = .ok false w := by
  have hoffer : Chain.offerFrom ⟨source, target, none⟩ 0 (options.links.map (·.link options)) w = .ok none w :=
    Chain.offerFrom_none options w fun j k hk => .inr (h k (List.mem_of_getElem? hk))
  have hprocess : Chain.process (options.links.map (·.link options)) (announce options) ⟨source, target, none⟩ w =
      .ok (false, []) w := bind_ok hoffer
  rw [runChain, show chainLimit = 63 + 1 from rfl, Chain.run_succ, bind_assoc, bind_ok hprocess, Chain.drain_nil]
  rfl

/-- A file that no link takes is copied unless there is something at its target. -/
theorem emit_of_declined (h : ∀ kind ∈ options.links, source.hasExtension kind.name = false) (target : Path) (w : World) :
    emit options source target w = if w.files.pathExists w.cwd target then
        .ok () { w with events := .record .debug .walk ("Keeping existing " ++ target.text) :: w.events }
      else copy source target w := by
  rw [emit, bind_ok (runChain_declined h w)]
  show (Action.check (fun fs cwd => fs.pathExists cwd target) >>= fun there => if there = true then _ else _) w = _
  have hcheck : Action.check (fun fs cwd => fs.pathExists cwd target) w = .ok (w.files.pathExists w.cwd target) w := rfl
  rw [bind_ok hcheck]
  split <;> rfl

theorem emit_unlinked (hlinks : options.links = []) (source target : Path) (w : World) :
    emit options source target w = if w.files.pathExists w.cwd target then
        .ok () { w with events := .record .debug .walk ("Keeping existing " ++ target.text) :: w.events }
      else copy source target w := emit_of_declined (by simp [hlinks]) target w

theorem emit_declined {u : Unit} (h : ∀ kind ∈ options.links, source.hasExtension kind.name = false)
    (hrun : emit options source target w = .ok u w') :
    w.files.pathExists w.cwd target = true ∧ w'.files = w.files ∨
      w.files.pathExists w.cwd target = false ∧ copy source target w = .ok u w' := by
  rw [emit_of_declined h] at hrun
  split at hrun
  · next hthere =>
    cases hrun
    exact .inl ⟨hthere, rfl⟩
  · next hthere => exact .inr ⟨by simpa using hthere, hrun⟩

/-- The first link of the kind takes the file, and no link takes what it makes of it. -/
theorem runChain_taken (hk : kind ∈ options.links) (hs : source.hasExtension kind.name = true)
    (hmade : ∀ paths w₁, (kind.link options).offer source target w = .ok (.produced paths) w₁ →
      ∀ q ∈ paths, ∀ k ∈ options.links, q.hasExtension k.name = true → k = kind ∧ options.links.count kind ≤ 1)
    (h : runChain options source target w = .ok applied w') : applied = true ∧
      ∃ o w₁, (kind.link options).offer source target w = .ok o w₁ ∧ w'.files = w₁.files := by
  rw [runChain, show chainLimit = 63 + 1 from rfl, Chain.run_succ] at h
  obtain ⟨r, w₂, hrun, h⟩ := bind_eq_ok h
  obtain ⟨⟨taken, files⟩, w₃, hprocess, hdrain⟩ := bind_eq_ok hrun
  rw [Chain.process] at hprocess
  obtain ⟨r', w₁, hoffer, hprocess⟩ := bind_eq_ok hprocess
  obtain ⟨j, o, hj, rfl, ho⟩ := Chain.offerFrom_some (p := ⟨source, target, none⟩) rfl hk hs hoffer
  obtain ⟨u, w₄, htell, hprocess⟩ := bind_eq_ok hprocess
  cases hprocess
  cases htell
  have hdeclined : ∀ p ∈ Chain.Outcome.files (0 + j) o, ∀ w,
      Chain.offerFrom p 0 (options.links.map (·.link options)) w = .ok none w := by
    intro p hp w
    cases o with
    | declined | finished => cases hp
    | produced paths =>
        obtain ⟨q, hq, rfl⟩ := List.mem_map.1 hp
        refine Chain.offerFrom_none options w fun i k hi => ?_
        by_cases hext : q.hasExtension k.name = true
        · obtain ⟨rfl, hcount⟩ := hmade paths w₁ ho q hq k (List.mem_of_getElem? hi) hext
          obtain rfl := getElem?_inj_of_count hcount hi hj
          exact .inl rfl
        · exact .inr (by simpa using hext)
  obtain ⟨rfl, hr⟩ := Chain.drain_declined _ hdeclined hdrain
  rcases hr with rfl | rfl
  · cases h
  · cases h
    exact ⟨rfl, o, w₁, ho, rfl⟩

theorem runChain_page (hk : .page ∈ options.links) (hs : source.hasExtension LinkKind.page.name = true)
    (hplace : (Page.placeOf target).fileChars? = some "index.html".toList)
    (h : runChain options source target w = .ok applied w') : applied = true ∧ ∃ text w₁ w₂ u,
      w₁.files = w.files ∧ writeText (Page.placeOf target) text w₁ = .ok u w₂ ∧ w'.files = w₂.files := by
  have hmade : ∀ paths w₁, (LinkKind.page.link options).offer source target w = .ok (.produced paths) w₁ →
      ∀ q ∈ paths, ∀ k ∈ options.links, q.hasExtension k.name = true →
        k = .page ∧ options.links.count .page ≤ 1 := by
    intro paths w₁ ho q hq k _ hext
    cases (Page.offer_ok hs ho).1
    rw [List.mem_singleton.1 hq, Path.hasExtension_iff hplace] at hext
    cases k <;> exact absurd hext (by decide)
  obtain ⟨happlied, o, w₂, hoffer, hfiles⟩ := runChain_taken hk hs hmade h
  obtain ⟨-, text, w₁, u, hread, hwrite⟩ := Page.offer_ok hs hoffer
  exact ⟨happlied, text, w₁, w₂, u, hread, hwrite, hfiles⟩

theorem runChain_stylesheet (hk : .stylesheet ∈ options.links)
    (hs : source.hasExtension LinkKind.stylesheet.name = true) (hone : options.links.count .stylesheet ≤ 1)
    (hentry : source.fileName? = some Stylesheet.entryName → target.fileChars? = some Stylesheet.entryName.toList)
    (h : runChain options source target w = .ok applied w') : applied = true ∧
      if source.fileName? = some Stylesheet.entryName then ∃ text w₁ w₂ u,
        w₁.files = w.files ∧ writeText target text w₁ = .ok u w₂ ∧ w'.files = w₂.files
      else w'.files = w.files := by
  have hmade : ∀ paths w₁, (LinkKind.stylesheet.link options).offer source target w = .ok (.produced paths) w₁ →
      ∀ q ∈ paths, ∀ k ∈ options.links, q.hasExtension k.name = true →
        k = .stylesheet ∧ options.links.count .stylesheet ≤ 1 := by
    intro paths w₁ ho q hq k _ hext
    have hends := Stylesheet.offer_ok hs ho
    split at hends
    · next he =>
      cases hends.1
      rw [List.mem_singleton.1 hq, Path.hasExtension_iff (hentry he)] at hext
      refine ⟨?_, hone⟩
      cases k with
      | page => exact absurd hext (by decide)
      | stylesheet => rfl
    · cases hends.1
  obtain ⟨happlied, o, w₂, hoffer, hfiles⟩ := runChain_taken hk hs hmade h
  refine ⟨happlied, ?_⟩
  have hends := Stylesheet.offer_ok hs hoffer
  split at hends
  · next he =>
    obtain ⟨-, text, w₁, u, hread, hwrite⟩ := hends
    rw [if_pos he]
    exact ⟨text, w₁, w₂, u, hread, hwrite, hfiles⟩
  · next he =>
    obtain ⟨-, rfl⟩ := hends
    rw [if_neg he]
    exact hfiles

end Walk

end SiteTree
