import SiteTree.Proofs.Walk.Clear
import SiteTree.Proofs.Walk.Errand
import SiteTree.Proofs.Walk.Setup

/-!
Walks that visit the entries of every directory and the expansions of every entry in any order. Each of them carries out
the errands that the source tree tells, in an order of its own; the walk by name carries them out as they are listed.
-/

namespace SiteTree.Walk

open SiteTree.Action FileSystem EntryName SiteTree.Path

/-- The order in which the entries of a directory are visited, and the expansions of an entry. It may depend on all that
has been done and told so far. -/
structure Order where
  entries : World → List Entry → List Entry
  expansions : World → List Expansion → List Expansion
  entries_perm : ∀ w l, (entries w l).Perm l
  expansions_perm : ∀ w l, (expansions w l).Perm l

namespace Order

def byName : Order := ⟨fun _ l => l, fun _ l => l, fun _ _ => .refl _, fun _ _ => .refl _⟩

def backwards : Order :=
  ⟨fun _ l => l.reverse, fun _ l => l.reverse, fun _ _ => List.reverse_perm _, fun _ _ => List.reverse_perm _⟩

def visit (o : Order) (limits : Limits) (descend : Options → Path → Path → Action Unit) (options : Options)
    (dest : Path) (entry : Entry) : Action Unit := do
  if limits.skip.any (·.alike entry.path) then
    Action.debug .walk ("Skipping " ++ entry.path.text ++ ": build output")
  else
    let relative := entry.path.relativeTo options.sourceRoot
    if limits.ignore.hides relative then
      Action.debug .walk ("Skipping " ++ relative.text ++ ": ignored")
    else
      let expansions ← Action.ofExcept (EntryName.expand entry.name options.scope)
      tellPruned entry.name expansions
      let w ← get
      (o.expansions w expansions).forM (enter descend options dest entry)

def render (o : Order) (limits : Limits) : Nat → Options → Path → Path → Action Unit
  | 0, _, dir, _ => throw (.read dir .tooDeep)
  | n + 1, options, dir, dest => do
    Action.progress .exploring (options.label dir dest)
    let entries ← entriesOf dir
    let w ← get
    (o.entries w entries).forM (o.visit limits (o.render limits n) options dest)

/-- The walk is the one by name. -/
theorem byName_render (limits : Limits) (n : Nat) : byName.render limits n = Walk.render limits n := by
  induction n with
  | zero => rfl
  | succ n ih =>
      funext options dir dest
      rw [render, ih]
      rfl

end Order

variable {o : Order} {α β : Type} {l l' m m' : List α} {limits : Limits} {options : Options} {dest : Path} {entry : Entry}
  {descend : Options → Path → Path → Action Unit}

namespace Order

theorem render_succ (n : Nat) (options : Options) (dir dest : Path) : o.render limits (n + 1) options dir dest =
    listing options dir dest >>= fun entries => get >>= fun w =>
      (o.entries w entries).forM (o.visit limits (o.render limits n) options dest) := by
  rw [render, listing, bind_assoc]

/-- One list has the members of another in the order. -/
structure Arranges (o : Order) (l l' : List α) : Prop where
  perm : l.Perm l'
  same : o = byName → l = l'

theorem Arranges.refl (l : List α) : o.Arranges l l := ⟨.refl l, fun _ => rfl⟩

theorem Arranges.append (h : o.Arranges l l') (h' : o.Arranges m m') : o.Arranges (l ++ m) (l' ++ m') :=
  ⟨h.perm.append h'.perm, fun ho => by rw [h.same ho, h'.same ho]⟩

theorem Arranges.flatMap {G : α → List β} {L : List β} (h : o.Arranges L (l.flatMap G)) (hl : o.Arranges l l') :
    o.Arranges L (l'.flatMap G) := ⟨h.perm.trans (hl.perm.flatMap_right G), fun ho => by rw [h.same ho, hl.same ho]⟩

theorem arranges_entries (o : Order) (w : World) (l : List Entry) : o.Arranges (o.entries w l) l :=
  ⟨o.entries_perm w l, fun ho => by rw [ho]; rfl⟩

theorem arranges_expansions (o : Order) (w : World) (l : List Expansion) : o.Arranges (o.expansions w l) l :=
  ⟨o.expansions_perm w l, fun ho => by rw [ho]; rfl⟩

/-- An entry that is passed over only has that told. -/
theorem visit_passed (h : limits.passes options.sourceRoot entry.path = true) (w : World) :
    ∃ events, o.visit limits descend options dest entry w = .ok () { w with events := events } := by
  rw [visit]
  split
  · exact ⟨_, rfl⟩
  · next hskip =>
    rw [Limits.passes, Bool.eq_false_iff.2 hskip, Bool.false_or] at h
    simp only [h, if_true]
    exact ⟨_, rfl⟩

theorem visit_taken (h : limits.passes options.sourceRoot entry.path = false) (w : World) :
    o.visit limits descend options dest entry w = (ofExcept (expand entry.name options.scope) >>= fun expansions =>
      tellPruned entry.name expansions >>= fun _ => get >>= fun w =>
        (o.expansions w expansions).forM (enter descend options dest entry)) w := by
  rw [Limits.passes, Bool.or_eq_false_iff] at h
  simp only [visit, h.1, h.2]
  rfl

end Order

theorem emit_stays (hlinks : options.links = []) (source target : Path) : Stays (emit options source target) := by
  intro w
  rw [after, emit_unlinked hlinks]
  by_cases hthere : w.files.pathExists w.cwd target = true
  · rw [if_pos hthere]
  · rw [if_neg hthere]
    exact Stays.copy source target w

namespace Order

theorem visit_stays (henter : ∀ e, Stays (enter descend options dest entry e)) :
    Stays (o.visit limits descend options dest entry) := by
  intro w
  cases hpass : limits.passes options.sourceRoot entry.path with
  | true =>
      obtain ⟨events, hrun⟩ := o.visit_passed hpass w
      rw [after_ok hrun]
  | false =>
      rw [after, visit_taken hpass]
      refine ((Stays.ofExcept _).bind fun expansions => Stays.bind (fun w => ?_) fun _ => Stays.get.bind fun w =>
        Stays.forM henter) w
      obtain ⟨events, htold⟩ := tellPruned_tells entry.name expansions w
      rw [htold]

theorem enter_stays (hlinks : options.links = []) (h : ∀ inner : Options, inner.links = [] → ∀ dir dest,
    Stays (descend inner dir dest)) (entry : Entry) (e : Expansion) : Stays (enter descend options dest entry e) := by
  cases hd : entry.isDirectory with
  | true =>
      rw [Setup.enter_directory hd]
      exact h { options with scope := e.scope } hlinks _ _
  | false =>
      rw [Setup.enter_file hd]
      split
      · exact Stays.throw _
      · exact emit_stays (show ({ options with scope := e.scope } : Options).links = [] from hlinks) _ _

theorem render_stays (o : Order) (limits : Limits) (n : Nat) (hlinks : options.links = []) (dir dest : Path) :
    Stays (o.render limits n options dir dest) := by
  induction n generalizing options dir dest with
  | zero => exact Stays.throw _
  | succ n ih =>
      refine Stays.bind (fun _ => rfl) fun _ => Stays.bind ?_ fun entries => Stays.get.bind fun w =>
        Stays.forM fun entry => visit_stays fun e => enter_stays hlinks (fun _ h => ih h) entry e
      exact (Stays.look _ _).bind fun names => Stays.mapM fun name => (Stays.look _ _).bind fun _ => Stays.pure _

end Order

namespace Trip

variable {T : Trip} {astray : Prop} {rel target : List String} {name : String} {fs : FileSystem} {w w' : World} {n : Nat}
  {e : Expansion} {L L' : List Errand} {below : List String → List String → Scope → List Errand}

theorem Runs.congr {a a' : Action Unit} (h : T.Runs astray L a' w) (ha : a w = a' w) : T.Runs astray L a w := by
  rw [Runs, failure?, after, ha]
  exact h

theorem Runs.nil {a : Action Unit} {events : List Event} (h : a w = .ok () { w with events := events }) :
    T.Runs astray [] a w := by
  rw [Runs, failure?_ok h, after_ok h]
  exact .done

theorem Runs.throw {a : Action Unit} {e : Failure} {events : List Event} (h : a w = .error e { w with events := events }) :
    T.Runs astray [.error e] a w := by
  rw [Runs, failure?_error h, after_error h]
  exact .fails

/-- What is only told before makes no difference. -/
theorem Runs.told {v : α} {a : Action α} {f : α → Action Unit} {events : List Event}
    (ha : a w = .ok v { w with events := events }) (h : T.Runs astray L (f v) { w with events := events }) :
    T.Runs astray L (a >>= f) w := by
  rw [Runs, after_bind_ok ha, failure?, bind_ok ha]
  exact h

/-- If every member of a list carries out its own errands, the list carries out all of them. -/
theorem forM_runs {f : β → Action Unit} {l : List β} {G : β → List Errand} (hw : T.Stands w)
    (hstays : ∀ b, Stays (f b)) (h : ∀ b w', Action.Comes f l w b w' → T.Stands w' →
      ∃ L, o.Arranges L (G b) ∧ T.Runs astray L (f b) w') :
    ∃ L, o.Arranges L (l.flatMap G) ∧ T.Runs astray L (l.forM f) w := by
  induction l generalizing w with
  | nil => exact ⟨[], .refl [], .nil rfl⟩
  | cons b l ih =>
      obtain ⟨L, hL, hruns⟩ := h b w ⟨[], l, rfl, rfl⟩ hw
      have hcwd := hstays b w
      show ∃ L, o.Arranges L (G b ++ l.flatMap G) ∧ T.Runs astray L (f b >>= fun _ => l.forM f) w
      cases hb : f b w with
      | error e w₁ =>
          rw [Runs, failure?_error hb, after_error hb] at hruns
          refine ⟨L ++ l.flatMap G, hL.append (.refl _), ?_⟩
          rw [Runs, after_bind_error hb, failure?_error (bind_error hb)]
          exact hruns.stops _
      | ok u w₁ =>
          rw [Runs, failure?_ok hb, after_ok hb] at hruns
          rw [after_ok hb] at hcwd
          -- Where the walk has gone astray the order of the rest does not matter.
          obtain ⟨L', hL', hrest⟩ : ∃ L', o.Arranges L' (l.flatMap G) ∧
              (T.Stands w₁ → T.Runs astray L' (l.forM f) w₁) := by
            by_cases hstands : T.Stands w₁
            · obtain ⟨L', hL', hruns⟩ := ih hstands fun c w₂ hc => h c w₂ (hc.cons hb)
              exact ⟨L', hL', fun _ => hruns⟩
            · exact ⟨l.flatMap G, .refl _, fun hs => absurd hs hstands⟩
          refine ⟨L ++ L', hL.append hL', ?_⟩
          rw [Runs, after_bind_ok hb, failure?, bind_ok hb, ← failure?]
          exact hruns.append hw.holds fun hfs => hrest ⟨hfs, by rw [hcwd, hw.cwd]⟩

/-- A directory of the source, with the place that its contents are to go to. -/
structure At (T : Trip) (astray : Prop) (options : Options) (rel target : List String) (dest : Path) : Prop where
  root : options.sourceRoot = T.source
  links : options.links = []
  directory : T.files.at? (T.loc ++ rel) = some .directory
  off : ¬ T.top <+: T.loc ++ rel
  dest : dest = T.dest.descend target
  names : ¬ astray → ∀ s ∈ target, IsName s

def entryOf (T : Trip) (rel : List String) (name : String) : Entry :=
  ⟨name, T.source.descend (rel ++ [name]), isDirectoryAt T.files (T.loc ++ (rel ++ [name]))⟩

/-- Nothing has changed in the source, but below the destination. -/
theorem holds_at?_below (hfs : T.Holds fs) (hoff : ¬ T.top <+: T.loc ++ rel) : fs.at? (T.loc ++ rel) = T.files.at? (T.loc ++ rel) :=
  (hfs.outside _ hoff).resolve_right fun h => T.apart h.2 ((List.prefix_append _ _).trans h.1)

/-- Nothing in the source has changed. -/
theorem holds_at?_eq (hfs : T.Holds fs) (hoff : ¬ T.top <+: T.loc ++ rel) (name : String) :
    fs.at? (T.loc ++ (rel ++ [name])) = T.files.at? (T.loc ++ (rel ++ [name])) := by
  by_cases htop : T.top <+: T.loc ++ (rel ++ [name])
  · rw [← List.append_assoc, List.prefix_concat_iff] at htop
    rw [← List.append_assoc, ← htop.resolve_right hoff]
    cases hat : T.files.at? T.top with
    | none =>
        refine absurd ?_ (T.apart hat)
        rw [htop.resolve_right hoff, List.append_assoc]
        exact List.prefix_append _ _
    | some node => exact hfs.kept _ _ hat
  · exact holds_at?_below hfs htop

variable (hat : T.At astray options rel target dest) (hw : T.Stands w)

include hat hw

theorem At.leadsTo : w.files.LeadsTo w.cwd (T.source.descend rel) (T.loc ++ rel) := by
  rw [hw.cwd]
  exact hw.holds.source.descend hw.holds.wellFormed (by rw [holds_at?_below hw.holds hat.off, hat.directory])

theorem At.listing_eq : ∃ events, listing options (T.source.descend rel) dest w =
    .ok ((T.files.children (T.loc ++ rel)).map (T.entryOf rel)) { w with events := events } := by
  have hsame : ∀ name, w.files.at? (T.loc ++ rel ++ [name]) = T.files.at? (T.loc ++ (rel ++ [name])) := by
    intro name
    rw [List.append_assoc, holds_at?_eq hw.holds hat.off]
  have hchildren : w.files.children (T.loc ++ rel) = T.files.children (T.loc ++ rel) :=
    children_congr fun name => by rw [hsame, ← List.append_assoc]
  have hlink : ∀ name target, w.files.at? (T.loc ++ rel ++ [name]) ≠ some (.link target) := by
    intro name target ht
    exact T.linkFree _ target (List.prefix_append _ _) (hsame name ▸ ht)
  obtain ⟨events, hp⟩ : ∃ events, Action.progress .exploring (options.label (T.source.descend rel) dest) w =
      .ok () { w with events := events } := ⟨_, rfl⟩
  refine ⟨events, ?_⟩
  rw [listing, bind_ok hp, entriesOf_eq (w := { w with events := events }) hw.holds.wellFormed (hat.leadsTo ⟨hw.holds, hw.cwd⟩) hlink]
  refine congrArg (EStateM.Result.ok · _) ?_
  show (w.files.children (T.loc ++ rel)).map _ = _
  rw [hchildren]
  refine List.map_congr_left fun name _ => ?_
  rw [entryOf, descend_append, isDirectoryAt, isDirectoryAt, hsame]

omit hw in
/-- What is passed over is told by the names that lead there. -/
theorem At.passes_eq (hn : IsName name) : T.limits.passes options.sourceRoot (T.entryOf rel name).path =
    passedOver T.limits T.source (rel ++ [name]) := by
  have hnames : ∀ s ∈ rel ++ [name], IsName s := by
    have hrel := names_below T.ready.wellFormed (show (T.files.at? (T.loc ++ rel)).isSome by rw [hat.directory]; rfl)
    simpa [or_imp, forall_and] using ⟨hrel, hn⟩
  rw [hat.root]
  exact (passedOver_descend T.ready.source.1 hnames (by simp)).symm

omit hw in
/-- The contents of a directory go to the place of its expansion. -/
theorem At.inner (hd : isDirectoryAt T.files (T.loc ++ (rel ++ [name])) = true)
    (hpass : passedOver T.limits T.source (rel ++ [name]) = false) (hname : ¬ astray → e.form ≠ .loop → IsName e.name) :
    T.At astray { options with scope := e.scope } (rel ++ [name]) (innerTarget target e) (innerDest dest e) := by
  refine ⟨hat.root, hat.links, isDirectoryAt_iff.1 hd, not_prefix_of_entered T.passed hat.off hpass, ?_, fun ha => ?_⟩
  · rw [innerTarget, innerDest, hat.dest]
    split
    · rfl
    · rw [descend_append]
  · rw [innerTarget]
    split
    · exact hat.names ha
    · next hloop => simpa [or_imp, forall_and] using ⟨hat.names ha, hname ha hloop⟩

section

variable (hsome : (T.files.at? (T.loc ++ (rel ++ [name]))).isSome)

include hsome

/-- A file of the directory is given to its target. -/
theorem At.emit_runs (hd : isDirectoryAt T.files (T.loc ++ (rel ++ [name])) = false) (hname : ¬ astray → IsName e.name) :
    T.Runs astray [.ok ⟨T.loc ++ (rel ++ [name]), target ++ [e.name], e.scope⟩]
      (emit { options with scope := e.scope } (T.source.descend (rel ++ [name])) (dest.child e.name)) w := by
  obtain ⟨bytes, hfile⟩ : ∃ bytes, T.files.at? (T.loc ++ (rel ++ [name])) = some (.file bytes) := by
    obtain ⟨node, hnode⟩ := Option.isSome_iff_exists.1 hsome
    cases node with
    | file bytes => exact ⟨bytes, hnode⟩
    | link t => exact absurd hnode (T.linkFree _ t (List.prefix_append _ _))
    | directory => rw [isDirectoryAt_iff.2 hnode] at hd; cases hd
  rw [Runs, hat.dest, ← descend_append]
  by_cases hn : ∀ s ∈ target ++ [e.name], IsName s
  · have hsource : w.files.found w.cwd (T.source.descend (rel ++ [name])) =
        .ok (T.loc ++ (rel ++ [name]), .file bytes) := by
      have hnow : w.files.at? (T.loc ++ rel ++ [name]) = some (.file bytes) := by
        rw [List.append_assoc, holds_at?_eq hw.holds hat.off, hfile]
      rw [descend_append, ← List.append_assoc]
      exact (hat.leadsTo hw).found_child (T.ready.wellFormed.isName_of_mem hsome name (by simp)) hnow rfl
    have hdest : w.files.LeadsTo w.cwd T.dest T.top ∨ w.files.Vacates T.dest T.top := by
      rw [hw.cwd]
      exact hw.holds.dest
    have hdelivers := emit_delivers hw.holds.wellFormed hdest hw.holds.linkFree
      (show ({ options with scope := e.scope } : Options).links = [] from hat.links) (by simp) hn hsource
    generalize failure? _ w = outcome at hdelivers ⊢
    cases outcome with
    | none => exact .gives hn hfile hdelivers .done
    | some e => exact .refused hn hfile hdelivers
  · refine .strays (by_contra fun ha => hn ?_) hn
    simpa [or_imp, forall_and] using ⟨hat.names ha, hname ha⟩

/-- One expansion carries out its errands if the walk below does. -/
theorem At.enter_runs (hpass : passedOver T.limits T.source (rel ++ [name]) = false)
    (hname : ¬ astray → e.form ≠ .loop → IsName e.name)
    (hbelow : T.At astray { options with scope := e.scope } (rel ++ [name]) (innerTarget target e) (innerDest dest e) →
      isDirectoryAt T.files (T.loc ++ (rel ++ [name])) = true →
      ∃ L, o.Arranges L (below (rel ++ [name]) (innerTarget target e) e.scope) ∧ T.Runs astray L
        (descend { options with scope := e.scope } (T.source.descend (rel ++ [name])) (innerDest dest e)) w) :
    ∃ L, o.Arranges L (errandsOn T.files T.loc below rel target name e) ∧
      T.Runs astray L (enter descend options dest (T.entryOf rel name) e) w := by
  rw [errandsOn]
  cases hd : isDirectoryAt T.files (T.loc ++ (rel ++ [name])) with
  | true =>
      rw [if_pos rfl, Setup.enter_directory hd]
      exact hbelow (hat.inner hd hpass hname) hd
  | false =>
      rw [if_neg Bool.false_ne_true, Setup.enter_file hd]
      split
      · exact ⟨_, .refl _, .throw rfl⟩
      · next hloop => exact ⟨_, .refl _, hat.emit_runs hw hsome hd fun ha => hname ha hloop⟩

/-- An entry carries out its errands if each of its expansions does. -/
theorem At.visit_runs (henter : passedOver T.limits T.source (rel ++ [name]) = false →
      ∀ expansions, expand name options.scope = .ok expansions → ∀ w₁ e w', w₁ = (tellPruned name expansions).after w →
        Action.Comes (enter descend options dest (T.entryOf rel name)) (o.expansions w₁ expansions) w₁ e w' → T.Stands w' →
        ∃ L, o.Arranges L (errandsOn T.files T.loc below rel target name e) ∧
          T.Runs astray L (enter descend options dest (T.entryOf rel name) e) w')
    (hstays : ∀ e, Stays (enter descend options dest (T.entryOf rel name) e)) :
    ∃ L, o.Arranges L (errandsOf T.limits T.files T.source T.loc below rel target options.scope name) ∧
      T.Runs astray L (o.visit T.limits descend options dest (T.entryOf rel name)) w := by
  have hpasses := hat.passes_eq (T.ready.wellFormed.isName_of_mem hsome name (by simp))
  rw [errandsOf]
  cases hpass : passedOver T.limits T.source (rel ++ [name]) with
  | true =>
      obtain ⟨events, hrun⟩ := o.visit_passed (hpasses.trans hpass) w
      exact ⟨[], .refl [], .nil hrun⟩
  | false =>
      rw [if_neg Bool.false_ne_true]
      suffices h : ∃ L, o.Arranges L _ ∧ T.Runs astray L (Action.ofExcept (expand name options.scope) >>= fun expansions =>
          tellPruned name expansions >>= fun _ => get >>= fun w => (o.expansions w expansions).forM
            (enter descend options dest (T.entryOf rel name))) w by
        obtain ⟨L, hL, hruns⟩ := h
        exact ⟨L, hL, hruns.congr (Order.visit_taken (hpasses.trans hpass) w)⟩
      cases hexp : expand name options.scope with
      | error e => exact ⟨_, .refl _, .throw rfl⟩
      | ok expansions =>
          obtain ⟨events, htold⟩ := tellPruned_tells name expansions w
          have htell := tellPruned_ok name expansions w
          rw [htold] at htell
          have hw₁ : T.Stands { w with events := events } := ⟨hw.holds, hw.cwd⟩
          obtain ⟨L, hL, hruns⟩ := forM_runs (o := o) (l := o.expansions { w with events := events } expansions) hw₁ hstays
            fun e w' hc hw' => henter hpass expansions hexp _ e w' htold.symm hc hw'
          exact ⟨L, hL.flatMap (o.arranges_expansions _ _), .told rfl (.told htell hruns)⟩

end

/-- A walk carries out the errands of the tree in the order that it takes. By name it does not go astray if the names
that it meets are names. The induction is on the nesting that is left. -/
theorem At.render_runs (o : Order) (n : Nat) (hmet : ¬ astray → o = .byName ∧
      MeetsOnly IsName T.limits n options (T.source.descend rel) dest w) :
    ∃ L, o.Arranges L (T.errands n rel target options.scope) ∧
      T.Runs astray L (o.render T.limits n options (T.source.descend rel) dest) w := by
  induction n generalizing options rel target dest w with
  | zero => exact ⟨_, .refl _, .throw rfl⟩
  | succ n ih =>
      obtain ⟨events, hl⟩ := hat.listing_eq hw
      have hw₁ : T.Stands { w with events := events } := ⟨hw.holds, hw.cwd⟩
      let w₁ : World := { w with events := events }
      let entries := (T.files.children (T.loc ++ rel)).map (T.entryOf rel)
      have henters : ∀ entry e, Stays (enter (o.render T.limits n) options dest entry e) :=
        Order.enter_stays hat.links fun _ h => o.render_stays T.limits n h
      obtain ⟨L, hL, hruns⟩ : ∃ L, o.Arranges L ((o.entries w₁ entries).flatMap fun entry =>
            errandsOf T.limits T.files T.source T.loc (T.errands n) rel target options.scope entry.name) ∧
          T.Runs astray L ((o.entries w₁ entries).forM (o.visit T.limits (o.render T.limits n) options dest)) w₁ := by
        refine forM_runs hw₁ (fun entry => Order.visit_stays (henters entry)) fun entry w₂ hcome hw₂ => ?_
        obtain ⟨name, hname, rfl⟩ : ∃ name ∈ T.files.children (T.loc ++ rel), T.entryOf rel name = entry := by
          obtain ⟨before, rest, he, -⟩ := hcome
          exact List.mem_map.1 ((o.entries_perm w₁ entries).mem_iff.1 (by rw [he]; simp))
        have hsome := mem_children.1 hname
        rw [List.append_assoc] at hsome
        refine hat.visit_runs hw₂ hsome (fun hpass expansions hexp w₃ e w₄ htold henter hw₄ => ?_) (henters _)
        have hcomes : ¬ astray → o = .byName ∧ Comes T.limits n options (T.source.descend rel) dest w (T.entryOf rel name) e w₄ := by
          intro ha
          obtain ⟨rfl, -⟩ := hmet ha
          rw [Order.byName_render] at hcome henter
          have hpasses := (hat.passes_eq (T.ready.wellFormed.isName_of_mem hsome name (by simp))).trans hpass
          rw [Limits.passes, Bool.or_eq_false_iff] at hpasses
          exact ⟨rfl, entries, expansions, w₁, w₂, hl, hcome, hpasses.1, hpasses.2, hexp, htold ▸ henter⟩
        refine hat.enter_runs hw₄ hsome hpass (fun ha => (hmet ha).2 e (.own (hcomes ha).2)) fun hbelow hd => ?_
        exact ih hbelow hw₄ fun ha => ⟨(hcomes ha).1, fun e' hm => (hmet ha).2 e' (.inner (hcomes ha).2 hd hm)⟩
      rw [Order.render_succ]
      refine ⟨L, ?_, .told hl (hruns.congr rfl)⟩
      have hall := hL.flatMap (o.arranges_entries _ _)
      rwa [List.flatMap_map] at hall

omit hat in
/-- The walk from the source to the destination. -/
theorem walk_runs (hroot : options.sourceRoot = T.source) (hlinks : options.links = []) (o : Order) (n : Nat)
    (hmet : ¬ astray → o = .byName ∧ MeetsOnly IsName T.limits n options T.source T.dest w) :
    ∃ L, o.Arranges L (T.errands n [] [] options.scope) ∧
      T.Runs astray L (o.render T.limits n options T.source T.dest) w := by
  have hnil : T.loc ++ [] = T.loc := List.append_nil T.loc
  have hat : T.At astray options [] [] T.dest :=
    ⟨hroot, hlinks, by rw [hnil, T.ready.source.directory], by rw [hnil]; exact T.off, rfl, fun _ => nofun⟩
  exact hat.render_runs hw o n hmet

end Trip

end SiteTree.Walk
