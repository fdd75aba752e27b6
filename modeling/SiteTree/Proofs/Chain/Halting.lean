import Mathlib.Logic.Hydra
import SiteTree.Proofs.Chain.AnyOrder
import SiteTree.Proofs.Path.Descent
import SiteTree.Proofs.Walk.Taken

/-!
Chains that come to an end. The queue of a chain is a hydra: a file goes, and any number of files may
come, but those that another link would take are of a lower rank.
-/

namespace SiteTree.Chain

variable {σ ε : Type}

/-- In some state, the link takes the file or fails in it. -/
def Takes (l : Link σ ε) (source target : Path) : Prop := ∃ s, ∀ s', l.offer source target s ≠ .ok .declined s'

def Makes (l : Link σ ε) (source target made : Path) : Prop :=
  ∃ s paths s', l.offer source target s = .ok (.produced paths) s' ∧ made ∈ paths

/-- What one link makes for another is of a lower rank than what it makes it of. -/
def Ranked (links : List (Link σ ε)) (rank : Path → Path → Nat) : Prop :=
  ∀ (i j : Nat) l m source target made, links[i]? = some l → links[j]? = some m → i ≠ j →
    Makes l source target made → Takes m made made → rank made made < rank source target

/-- The run has ended after that many files, and no more of them would change it. -/
def HaltsBy (n : Nat) (links : List (Link σ ε)) (announce : String → Waiting → EStateM ε σ Unit)
    (source target : Path) (s : σ) : Prop :=
  (∀ s', run links announce n source target s ≠ .ok none s') ∧
    ∀ limit, n ≤ limit → run links announce limit source target s = run links announce n source target s

variable {links : List (Link σ ε)} {l : Link σ ε} {announce : String → Waiting → EStateM ε σ Unit} {p q : Waiting}
  {queue files : List Waiting} {rank : Path → Path → Nat} {source target : Path} {s s' : σ} {i k n m : Nat}
  {name : String} {outcome : Outcome} {taken applied : Bool}

theorem drain_failed_in {e : ε} (h : process links announce p s = .error e s') (n : Nat) (queue : List Waiting)
    (applied : Bool) : drain links announce (n + 1) (p :: queue) applied s = .error e s' := by
  simp only [drain, bind, EStateM.bind, h]

/-- A limit that is enough gives what any higher one gives. -/
theorem drain_mono (h : ∀ s', drain links announce n queue applied s ≠ .ok none s') (hle : n ≤ m) :
    drain links announce m queue applied s = drain links announce n queue applied s := by
  induction n generalizing queue applied s m with
  | zero =>
      cases queue with
      | nil => rw [drain_nil, drain_nil]
      | cons p queue => exact absurd rfl (h s)
  | succ n ih =>
      obtain ⟨m, rfl⟩ := Nat.exists_eq_add_of_le' hle
      cases queue with
      | nil => rw [drain_nil, drain_nil]
      | cons p queue =>
          cases hp : process links announce p s with
          | error e s' => rw [← Nat.add_assoc, drain_failed_in hp, drain_failed_in hp]
          | ok r s' =>
              obtain ⟨taken, files⟩ := r
              rw [drain_processed hp] at h
              rw [← Nat.add_assoc, drain_processed hp, drain_processed hp]
              exact ih h (Nat.le_add_left n m)

theorem haltsBy_of_ne_none (h : ∀ s', run links announce n source target s ≠ .ok none s') :
    HaltsBy n links announce source target s :=
  ⟨h, fun _ hle => drain_mono h hle⟩

theorem drain_succ_ne_none (h : ∀ taken files s', process links announce p s = .ok (taken, files) s' →
      ∀ s'', drain links announce n (queue ++ files) (applied || taken) s' ≠ .ok none s'') :
    ∀ s', drain links announce (n + 1) (p :: queue) applied s ≠ .ok none s' := by
  intro s'
  cases hp : process links announce p s with
  | error e s₁ => rw [drain_failed_in hp]; nofun
  | ok r s₁ =>
      obtain ⟨taken, files⟩ := r
      rw [drain_processed hp]
      exact h taken files s₁ hp s'

theorem offerFrom_ok (h : offerFrom p i links s = .ok (some (k, name, outcome)) s') :
    ∃ j l s₁, k = i + j ∧ links[j]? = some l ∧ p.producer ≠ some k ∧
      l.offer p.source p.target s₁ = .ok outcome s' ∧ outcome ≠ .declined := by
  induction links generalizing i s with
  | nil => cases h
  | cons l links ih =>
      have hnext : ∀ s, offerFrom p (i + 1) links s = .ok (some (k, name, outcome)) s' →
          ∃ j m s₁, k = i + j ∧ (l :: links)[j]? = some m ∧ p.producer ≠ some k ∧
            m.offer p.source p.target s₁ = .ok outcome s' ∧ outcome ≠ .declined := by
        intro s h
        obtain ⟨j, m, s₁, rfl, hm, hrest⟩ := ih h
        exact ⟨j + 1, m, s₁, by omega, hm, hrest⟩
      rw [offerFrom] at h
      split at h
      · exact hnext s h
      · next hp =>
        simp only [bind, EStateM.bind] at h
        cases ho : l.offer p.source p.target s with
        | error e s₁ => rw [ho] at h; cases h
        | ok o s₁ =>
            rw [ho] at h
            cases o with
            | declined => exact hnext s₁ h
            | finished | produced =>
                cases h
                exact ⟨0, l, s, rfl, rfl, hp, ho, fun hc => by cases hc⟩

/-- The files that come are those that some link has made, which was not the one that made the first. -/
theorem process_ok (h : process links announce p s = .ok (taken, files) s') : files = [] ∨
    ∃ i l s₁ s₂ paths, links[i]? = some l ∧ p.producer ≠ some i ∧
      l.offer p.source p.target s₁ = .ok (.produced paths) s₂ ∧ files = paths.map fun path => ⟨path, path, some i⟩ := by
  simp only [process, bind, EStateM.bind] at h
  cases ho : offerFrom p 0 links s with
  | error e s₁ => rw [ho] at h; cases h
  | ok found s₁ =>
      rw [ho] at h
      cases found with
      | none => cases h; exact .inl rfl
      | some f =>
          obtain ⟨i, name, outcome⟩ := f
          obtain ⟨j, l, s₀, rfl, hl, hp, hoffer, -⟩ := offerFrom_ok ho
          rw [Nat.zero_add] at hp h
          dsimp only [EStateM.bind, bind] at h
          cases ha : announce name p s₁ with
          | error e s₂ => rw [ha] at h; cases h
          | ok u s₂ =>
              rw [ha] at h
              cases h
              cases outcome with
              | declined | finished => exact .inl rfl
              | produced paths => exact .inr ⟨j, l, s₀, s₁, paths, hl, hp, hoffer, rfl⟩

open Classical in
/-- What a file may still give rise to: nothing if no link takes it but perhaps the one that made it. -/
noncomputable def weight (links : List (Link σ ε)) (rank : Path → Path → Nat) (p : Waiting) : Nat :=
  if ∃ j m, links[j]? = some m ∧ p.producer ≠ some j ∧ Takes m p.source p.target then rank p.source p.target + 1 else 0

theorem weight_lt (hrank : Ranked links rank) (h : process links announce p s = .ok (taken, files) s') (hq : q ∈ files) :
    weight links rank q < weight links rank p := by
  rcases process_ok h with rfl | ⟨i, l, s₁, s₂, paths, hl, hp, hoffer, rfl⟩
  · cases hq
  · obtain ⟨path, hpath, rfl⟩ := List.mem_map.1 hq
    have htakes : Takes l p.source p.target := ⟨s₁, fun s' => by rw [hoffer]; nofun⟩
    have hweight : weight links rank p = rank p.source p.target + 1 := if_pos ⟨i, l, hl, hp, htakes⟩
    rw [hweight, weight]
    split
    · next hlive =>
      obtain ⟨j, m, hm, hne, htake⟩ := hlive
      have hij : i ≠ j := fun he => hne (by rw [he])
      exact Nat.succ_lt_succ (hrank i j l m _ _ path hl hm hij ⟨s₁, paths, s₂, hoffer, hpath⟩ htake)
    · exact Nat.succ_pos _

/-- By the order on the weights in the queue in which one of them may be replaced by any number of lower ones. -/
theorem drain_halts (announce : String → Waiting → EStateM ε σ Unit) (hrank : Ranked links rank)
    (queue : List Waiting) (applied : Bool) (s : σ) :
    ∃ n, ∀ s', drain links announce n queue applied s ≠ .ok none s' := by
  have hwf : WellFounded (Relation.CutExpand fun a b : Nat => a < b) := Nat.lt_wfRel.wf.cutExpand
  induction hw : (queue.map (weight links rank) : Multiset Nat) using hwf.induction
    generalizing queue applied s with
  | _ weights ih =>
    subst hw
    cases queue with
    | nil => exact ⟨0, fun s' => by rw [drain_nil]; nofun⟩
    | cons p queue =>
        cases hp : process links announce p s with
        | error e s₁ => exact ⟨1, fun s' => by rw [drain_failed_in hp]; nofun⟩
        | ok r s₁ =>
            obtain ⟨taken, files⟩ := r
            have hcut : Relation.CutExpand (fun a b : Nat => a < b)
                ((queue ++ files).map (weight links rank) : Multiset Nat)
                ((p :: queue).map (weight links rank) : Multiset Nat) := by
              refine ⟨(files.map (weight links rank) : Multiset Nat), weight links rank p, fun a ha => ?_, ?_⟩
              · obtain ⟨q, hq, rfl⟩ := List.mem_map.1 (Multiset.mem_coe.1 ha)
                exact weight_lt hrank hp hq
              · rw [List.map_append, List.map_cons, ← Multiset.coe_add, ← Multiset.cons_coe, ← Multiset.singleton_add]
                exact add_comm _ _ |>.trans (add_assoc _ _ _).symm
            obtain ⟨n, hn⟩ := ih _ hcut (queue ++ files) (applied || taken) s₁ rfl
            exact ⟨n + 1, fun s' => by rw [drain_processed hp]; exact hn s'⟩

/-- The one call that a chain of one link makes. -/
def once (l : Link σ ε) (announce : String → Waiting → EStateM ε σ Unit) (source target : Path) :
    EStateM ε σ (Option Bool) := do
  match ← l.offer source target with
  | .declined => pure (some false)
  | _ => do
    announce l.name (rootOf source target)
    pure (some true)

/-- What the only link makes is not for itself. -/
theorem files_idle (l : Link σ ε) (outcome : Outcome) : ∀ p ∈ Outcome.files 0 outcome, offerFrom p 0 [l] = pure none := by
  intro p hp
  rw [files_eq_map] at hp
  obtain ⟨path, -, rfl⟩ := List.mem_map.1 hp
  refine offerFrom_idle fun j m hm => .inl ?_
  cases j with
  | zero => rfl
  | succ j => cases hm

theorem once_ne_none (s' : σ) : once l announce source target s ≠ .ok none s' := by
  simp only [once, bind, EStateM.bind]
  cases l.offer source target s with
  | error e s₁ => nofun
  | ok outcome s₁ =>
      cases outcome with
      | declined => nofun
      | finished | produced =>
          dsimp only [EStateM.bind]
          cases announce l.name (rootOf source target) s₁ <;> nofun

/-- What comes of the root where there is one link. -/
theorem process_single (l : Link σ ε) (announce : String → Waiting → EStateM ε σ Unit) (source target : Path) (s : σ) :
    process [l] announce (rootOf source target) s =
      match l.offer source target s with
      | .error e s₁ => .error e s₁
      | .ok .declined s₁ => .ok (false, []) s₁
      | .ok outcome s₁ => match announce l.name (rootOf source target) s₁ with
        | .error e s₂ => .error e s₂
        | .ok _ s₂ => .ok (true, Outcome.files 0 outcome) s₂ := by
  have hoffer : offerFrom (rootOf source target) 0 [l] = offerOne (rootOf source target) 0 l :=
    offerFrom_sole rfl (fun j m hj hne => absurd (Nat.lt_one_iff.1 (List.getElem?_eq_some_iff.1 hj).1) hne) 0
  have hproducer : (rootOf source target).producer ≠ some 0 := (Option.some_ne_none 0).symm
  rw [process, hoffer, offerOne, if_neg hproducer]
  simp only [bind, EStateM.bind, rootOf]
  cases l.offer source target s with
  | error e s₁ => rfl
  | ok outcome s₁ =>
      cases outcome with
      | declined => rfl
      | finished | produced =>
          dsimp only [EStateM.bind, pure, EStateM.pure]
          cases announce l.name ⟨source, target, none⟩ s₁ <;> rfl

theorem run_single (l : Link σ ε) (announce : String → Waiting → EStateM ε σ Unit) (source target : Path) (s : σ) :
    ∃ n, run [l] announce n source target s = once l announce source target s := by
  have hprocess := process_single l announce source target s
  simp only [once, bind, EStateM.bind]
  cases ho : l.offer source target s with
  | error e s₁ =>
      rw [ho] at hprocess
      exact ⟨1, drain_failed_in hprocess 0 [] false⟩
  | ok outcome s₁ =>
      rw [ho] at hprocess
      have hidle := files_idle l outcome
      cases outcome with
      | declined => exact ⟨1, drain_processed hprocess 0 [] false⟩
      | finished | produced =>
          dsimp only at hprocess
          dsimp only [EStateM.bind]
          cases ha : announce l.name (rootOf source target) s₁ with
          | error e s₂ =>
              rw [ha] at hprocess
              exact ⟨1, drain_failed_in hprocess 0 [] false⟩
          | ok u s₂ =>
              rw [ha] at hprocess
              exact ⟨_, (drain_processed hprocess _ [] false).trans (drain_idle announce hidle le_rfl true s₂)⟩

/-- A page stands in a file of this name, whatever its target is. -/
theorem placeOf_fileChars (target : Path) : (Page.placeOf target).fileChars? = some "index.html".toList := by
  have hchild : ∀ p : Path, (p.child "index.html").fileChars? = some "index.html".toList := by
    intro p
    by_cases hp : p.text = ""
    · obtain ⟨text⟩ := p
      obtain rfl : text = "" := hp
      decide
    · exact Path.fileChars_child (by decide) hp
  rw [Page.placeOf]
  split
  · rw [Path.withFileName]
    split <;> exact hchild _
  · exact hchild _

section BuiltIn

variable {options : Options} {kinds : List LinkKind} {kind : LinkKind} {tell : String → Waiting → Action Unit} {w w' : World}

theorem getElem?_links (options : Options) (kinds : List LinkKind) (i : Nat) {l : Link World Failure}
    (h : (kinds.map (·.link options))[i]? = some l) : ∃ kind, kinds[i]? = some kind ∧ l = kind.link options := by
  rw [List.getElem?_map] at h
  obtain ⟨kind, hk, rfl⟩ := Option.map_eq_some_iff.1 h
  exact ⟨kind, hk, rfl⟩

/-- A link that does something with a file has the extension of the file for its name. -/
theorem hasExtension_of_offer {outcome : Outcome} (h : (kind.link options).offer source target w = .ok outcome w')
    (ho : outcome ≠ .declined) : source.hasExtension kind.name = true := by
  by_contra hext
  rw [LinkKind.offer_declined options target w (Bool.eq_false_iff.2 hext)] at h
  cases h
  exact ho rfl

/-- What a built-in link makes: a page, that no link takes, or the target of a stylesheet. -/
theorem process_builtin (h : process (kinds.map (·.link options)) tell p w = .ok (taken, files) w') : files = [] ∨
    ∃ i path, files = [⟨path, path, some i⟩] ∧ p.producer ≠ some i ∧
      (path.fileChars? = some "index.html".toList ∨ kinds[i]? = some .stylesheet) := by
  rcases process_ok h with hnil | ⟨i, l, w₁, w₂, paths, hl, hp, hoffer, rfl⟩
  · exact .inl hnil
  · obtain ⟨kind, hk, rfl⟩ := getElem?_links options kinds i hl
    have hext := hasExtension_of_offer hoffer nofun
    cases kind with
    | page =>
        cases (Page.offer_ok hext hoffer).1
        exact .inr ⟨i, _, rfl, hp, .inl (placeOf_fileChars _)⟩
    | stylesheet =>
        have hends := Stylesheet.offer_ok hext hoffer
        split at hends
        · cases hends.1
          exact .inr ⟨i, _, rfl, hp, .inr hk⟩
        · cases hends.1

theorem page_idle (h : p.source.fileChars? = some "index.html".toList) :
    offerFrom p 0 (kinds.map (·.link options)) = pure none := by
  refine offerFrom_idle fun j l hl => .inr fun w => ?_
  obtain ⟨kind, -, rfl⟩ := getElem?_links options kinds j hl
  refine LinkKind.offer_declined options p.target w (Bool.eq_false_iff.2 fun hext => ?_)
  rw [Path.hasExtension_iff h] at hext
  cases kind <;> exact absurd hext (by decide)

theorem drain_page (h : p.source.fileChars? = some "index.html".toList) (n : Nat) (applied : Bool) (w w' : World) :
    drain (kinds.map (·.link options)) tell (n + 1) [p] applied w ≠ .ok none w' := by
  rw [drain_idle tell (by simpa using page_idle h) (Nat.succ_le_succ (Nat.zero_le n))]
  nofun

/-- What the one stylesheet link makes may become a page, and nothing else. -/
theorem drain_styled (hone : kinds.count .stylesheet ≤ 1) (hk : kinds[i]? = some .stylesheet) (hp : p.producer = some i)
    (n : Nat) (applied : Bool) (w w' : World) :
    drain (kinds.map (·.link options)) tell (n + 2) [p] applied w ≠ .ok none w' := by
  refine drain_succ_ne_none (fun taken files w₁ hprocess w₂ => ?_) w'
  rw [List.nil_append]
  rcases process_builtin hprocess with rfl | ⟨j, path, rfl, hne, hpage | hstyled⟩
  · rw [drain_nil]; nofun
  · exact drain_page (p := ⟨path, path, some j⟩) hpage n _ _ _
  · rw [hp, getElem?_inj_of_count hone hk hstyled] at hne
    exact absurd rfl hne

theorem run_builtin (hone : kinds.count .stylesheet ≤ 1) (tell : String → Waiting → Action Unit) (source target : Path)
    (w : World) : HaltsBy 3 (kinds.map (·.link options)) tell source target w := by
  refine haltsBy_of_ne_none (drain_succ_ne_none fun taken files w₁ hprocess w₂ => ?_)
  rw [List.nil_append]
  rcases process_builtin hprocess with rfl | ⟨j, path, rfl, -, hpage | hstyled⟩
  · rw [drain_nil]; nofun
  · exact drain_page (p := ⟨path, path, some j⟩) hpage 1 _ _ _
  · exact drain_styled hone hstyled (p := ⟨path, path, some j⟩) rfl 0 _ _ _

end BuiltIn

/-- A chain halts if what its links make for each other goes down in rank. One link alone is called once, and
links of the built-in kinds take up three files at most, if one of them at most is for stylesheets. -/
theorem chain_halts {σ ε : Type} (links : List (Link σ ε)) (announce : String → Waiting → EStateM ε σ Unit)
    (rank : Path → Path → Nat) (hrank : Ranked links rank) (kinds : List LinkKind) (hone : kinds.count .stylesheet ≤ 1)
    (source target : Path) :
    (∀ s, ∃ n, HaltsBy n links announce source target s) ∧
    (∀ (l : Link σ ε) s, ∃ n, HaltsBy n [l] announce source target s ∧
      run [l] announce n source target s = once l announce source target s) ∧
    ∀ (options : Options) (tell : String → Waiting → Action Unit) w,
      HaltsBy 3 (kinds.map (·.link options)) tell source target w := by
  refine ⟨fun s => ?_, fun l s => ?_, fun options tell w => run_builtin hone tell source target w⟩
  · obtain ⟨n, hn⟩ := drain_halts announce hrank [rootOf source target] false s
    exact ⟨n, haltsBy_of_ne_none hn⟩
  · obtain ⟨n, hn⟩ := run_single l announce source target s
    exact ⟨n, haltsBy_of_ne_none fun s' => hn ▸ once_ne_none s', hn⟩

def relayRank (source _ : Path) : Nat := if source = ⟨"one"⟩ then 1 else 0

theorem relay_halts : Ranked ([false, true].map (applier relay)) relayRank ∧
    [LinkKind.page, .stylesheet, .page].count .stylesheet ≤ 1 ∧
    ∃ n, HaltsBy n ([false, true].map (applier relay)) (fun _ _ => pure ()) ⟨"one"⟩ ⟨"site"⟩ [] := by
  have hmakes : ∀ b source target made, Makes (applier relay b) source target made →
      source = ⟨"one"⟩ ∧ made = ⟨"other"⟩ := by
    rintro b source target made ⟨s, paths, s', ho, hmade⟩
    cases b with
    | false =>
        by_cases hs : source = ⟨"one"⟩
        · have hone : relay false source target = .ok (.produced [⟨"other"⟩]) := by rw [relay, if_pos hs]
          rw [applier_offer hone fun hc => by cases hc] at ho
          cases ho
          exact ⟨hs, List.mem_singleton.1 hmade⟩
        · rw [applier_declines (by rw [relay, if_neg hs])] at ho
          cases ho
    | true =>
        by_cases hs : source = ⟨"other"⟩
        · have hother : relay true source target = .ok .finished := by rw [relay, if_pos hs]
          rw [applier_offer hother fun hc => by cases hc] at ho
          cases ho
        · rw [applier_declines (by rw [relay, if_neg hs])] at ho
          cases ho
  have hrank : Ranked ([false, true].map (applier relay)) relayRank := by
    intro i j l m source target made hl _ _ hmade _
    rw [List.getElem?_map] at hl
    obtain ⟨b, -, rfl⟩ := Option.map_eq_some_iff.1 hl
    obtain ⟨rfl, rfl⟩ := hmakes b source target made hmade
    exact (show relayRank ⟨"other"⟩ ⟨"other"⟩ < relayRank ⟨"one"⟩ ⟨"site"⟩ by decide)
  refine ⟨hrank, by decide, ?_⟩
  exact (chain_halts _ (fun _ _ => pure ()) relayRank hrank [.page, .stylesheet, .page] (by decide) ⟨"one"⟩ ⟨"site"⟩).1 []

end SiteTree.Chain
