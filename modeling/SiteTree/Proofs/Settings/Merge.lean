import SiteTree.Proofs.FileSystem.Listing
import SiteTree.Proofs.Text.Split
import SiteTree.Settings.Merge

/-!
What the options of a build are made of. Roots and names of links come from the arguments if they are
there, patterns from both sides, and each name of the scope is bound by the last argument that binds it or
else by the settings. What a table holds is settled by what is found in it, so that this is all that can be
said of a scope.
-/

namespace SiteTree

open Text

namespace Table

variable {α : Type} {key : String} {value : α} {table other : Table α}

/-- Names stand in ascending order, each once. -/
def Ascending (table : Table α) : Prop := table.Pairwise fun p q => p.1 < q.1

theorem ascending_iff : Ascending table ↔ (table.map (·.1)).Pairwise (· < ·) := by
  rw [List.pairwise_map, Ascending]

theorem names_insert (key : String) (value : α) (table : Table α) :
    (insert key value table).map (·.1) = FileSystem.insertName key (table.map (·.1)) := by
  induction table with
  | nil => rfl
  | cons p table ih =>
      obtain ⟨k, v⟩ := p
      by_cases hk : k = key
      · simp [insert, FileSystem.insertName, hk]
      · by_cases hlt : key < k <;> simp [insert, FileSystem.insertName, hk, Ne.symm hk, hlt, ih]

theorem Ascending.insert (h : Ascending table) (key : String) (value : α) : Ascending (insert key value table) := by
  rw [ascending_iff, names_insert]
  exact FileSystem.insertName_sorted (ascending_iff.1 h)

theorem ofPairs_concat (pairs : List (String × α)) (p : String × α) :
    ofPairs (pairs ++ [p]) = insert p.1 p.2 (ofPairs pairs) := by
  rw [ofPairs, List.foldl_append]
  rfl

theorem ascending_ofPairs (pairs : List (String × α)) : Ascending (ofPairs pairs) := by
  induction pairs using List.reverseRecOn with
  | nil => exact List.Pairwise.nil
  | append_singleton pairs p ih =>
      rw [ofPairs_concat]
      exact ih.insert p.1 p.2

/-- Of several values for one name the last is found. -/
theorem get?_ofPairs_last (key : String) (pairs : List (String × α)) :
    get? key (ofPairs pairs) = pairs.reverse.lookup key := by
  induction pairs using List.reverseRecOn with
  | nil => rfl
  | append_singleton pairs p ih =>
      rw [ofPairs_concat, get?_insert, List.reverse_concat, List.lookup_cons, ih]
      by_cases hp : p.1 = key
      · rw [if_pos hp, beq_iff_eq.2 hp.symm]
      · rw [if_neg hp, beq_false_of_ne (Ne.symm hp)]

theorem get?_of_lt (h : ∀ p ∈ table, key < p.1) : get? key table = none := by
  induction table with
  | nil => rfl
  | cons p table ih =>
      have hne : p.1 ≠ key := fun he => String.lt_irrefl key (he ▸ h p List.mem_cons_self)
      rw [get?, if_neg hne]
      exact ih fun q hq => h q (List.mem_cons_of_mem p hq)

theorem get?_cons_self (key : String) (value : α) (table : Table α) : get? key ((key, value) :: table) = some value :=
  if_pos rfl

theorem not_lt_of_get? {k : String} {v : α} (ht : Ascending ((k, v) :: table)) (h : get? key ((k, v) :: table) ≠ none) :
    ¬ key < k := by
  intro hlt
  refine h (get?_of_lt fun p hp => ?_)
  rcases List.mem_cons.1 hp with rfl | hp
  · exact hlt
  · exact String.lt_trans hlt ((List.pairwise_cons.1 ht).1 p hp)

/-- A table is settled by what is found in it. -/
theorem Ascending.ext (ht : Ascending table) (hu : Ascending other) (h : ∀ key, get? key table = get? key other) :
    table = other := by
  induction table generalizing other with
  | nil =>
      cases other with
      | nil => rfl
      | cons q other => exact nomatch (h q.1).trans (get?_cons_self q.1 q.2 other)
  | cons p table ih =>
      obtain ⟨k, v⟩ := p
      cases other with
      | nil => exact nomatch (get?_cons_self k v table).symm.trans (h k)
      | cons q other =>
          obtain ⟨l, w⟩ := q
          obtain ⟨hk, ht'⟩ := List.pairwise_cons.1 ht
          obtain ⟨hl, hu'⟩ := List.pairwise_cons.1 hu
          -- Each of the first names is found on the other side, so that neither is the smaller one.
          have hfirst : ¬ k < l := not_lt_of_get? hu (by rw [← h, get?_cons_self]; nofun)
          have hfirst' : ¬ l < k := not_lt_of_get? ht (by rw [h, get?_cons_self]; nofun)
          obtain rfl : k = l := String.le_antisymm (String.not_lt.1 hfirst') (String.not_lt.1 hfirst)
          have hv : some v = some w := (get?_cons_self k v table).symm.trans ((h k).trans (get?_cons_self k w other))
          cases hv
          rw [ih ht' hu' fun key => ?_]
          by_cases hkey : k = key
          · subst hkey
            rw [get?_of_lt hk, get?_of_lt hl]
          · have hrest := h key
            rwa [get?, get?, if_neg hkey, if_neg hkey] at hrest

end Table

namespace LinkKind

variable {kind : LinkKind} {kinds : List LinkKind} {name : String} {names : List String} {e : Failure}

theorem ofName_eq_ok : ofName name = .ok kind ↔ kind.name = name := by
  constructor
  · intro h
    rw [ofName] at h
    split at h
    · next hn => cases h; exact hn.symm
    · split at h
      · next hn => cases h; exact hn.symm
      · cases h
  · rintro rfl
    cases kind <;> rfl

theorem ofName_eq_error : ofName name = .error e ↔ (∀ kind : LinkKind, kind.name ≠ name) ∧ e = .unknownLink name := by
  constructor
  · intro h
    refine ⟨fun kind hk => ?_, ?_⟩
    · rw [ofName_eq_ok.2 hk] at h
      cases h
    · rw [ofName] at h
      split at h
      · cases h
      · split at h
        · cases h
        · cases h
          rfl
  · rintro ⟨hne, rfl⟩
    rw [ofName, if_neg (hne .page).symm, if_neg (hne .stylesheet).symm]

theorem ofNames_eq_ok : ofNames names = .ok kinds ↔ kinds.map LinkKind.name = names := by
  induction names generalizing kinds with
  | nil => cases kinds <;> simp [ofNames]
  | cons n names ih =>
      rw [ofNames]
      cases hn : ofName n with
      | error e =>
          refine iff_of_false nofun fun h => ?_
          cases kinds with
          | nil => cases h
          | cons k kinds => exact (ofName_eq_error.1 hn).1 k (List.cons.inj h).1
      | ok k =>
          obtain rfl := ofName_eq_ok.1 hn
          cases hns : ofNames names with
          | error e =>
              refine iff_of_false nofun fun h => ?_
              cases kinds with
              | nil => cases h
              | cons k kinds => exact nomatch hns.symm.trans (ih.2 (List.cons.inj h).2)
          | ok ks =>
              constructor
              · rintro ⟨⟩
                rw [List.map_cons, ih.1 hns]
              · intro h
                cases kinds with
                | nil => cases h
                | cons l kinds =>
                    obtain ⟨hl, hkinds⟩ := List.cons.inj h
                    have hk : Except.ok k = Except.ok l := (ofName_eq_ok.2 rfl).symm.trans (ofName_eq_ok.2 hl)
                    have hks : Except.ok ks = Except.ok kinds := hns.symm.trans (ih.2 hkinds)
                    cases hk
                    cases hks
                    rfl

/-- The first name that no link has is refused. -/
theorem ofNames_eq_error : ofNames names = .error e ↔ ∃ before name after, names = before ++ name :: after ∧
    (∀ n ∈ before, ∃ kind : LinkKind, kind.name = n) ∧ (∀ kind : LinkKind, kind.name ≠ name) ∧ e = .unknownLink name := by
  induction names with
  | nil => simp [ofNames]
  | cons n names ih =>
      rw [ofNames]
      cases hn : ofName n with
      | error e' =>
          obtain ⟨hne, rfl⟩ := ofName_eq_error.1 hn
          constructor
          · rintro ⟨⟩
            exact ⟨[], n, names, rfl, nofun, hne, rfl⟩
          · rintro ⟨before, name, after, hnames, hbefore, -, rfl⟩
            cases before with
            | nil => cases hnames; rfl
            | cons b before =>
                obtain ⟨rfl, -⟩ := List.cons.inj hnames
                obtain ⟨kind, hk⟩ := hbefore n List.mem_cons_self
                exact absurd hk (hne kind)
      | ok k =>
          have hrest : (do let ks ← ofNames names; Except.ok (k :: ks)) = .error e ↔ ofNames names = .error e := by
            cases ofNames names <;> simp [bind, Except.bind]
          refine Iff.trans hrest (ih.trans ?_)
          constructor
          · rintro ⟨before, name, after, rfl, hbefore, h⟩
            refine ⟨n :: before, name, after, rfl, fun m hm => ?_, h⟩
            rcases List.mem_cons.1 hm with rfl | hm
            · exact ⟨k, ofName_eq_ok.1 hn⟩
            · exact hbefore m hm
          · rintro ⟨before, name, after, hnames, hbefore, hne, rfl⟩
            cases before with
            | nil =>
                obtain ⟨rfl, -⟩ := List.cons.inj hnames
                exact absurd (ofName_eq_ok.1 hn) (hne k)
            | cons b before =>
                obtain ⟨rfl, rfl⟩ := List.cons.inj hnames
                exact ⟨before, name, after, rfl, fun m hm => hbefore m (List.mem_cons_of_mem _ hm), hne, rfl⟩

end LinkKind

namespace Arguments

variable {text key value : String}

theorem pair?_eq_some : pair? text = some (key, value) ↔
    text = key ++ "=" ++ value ∧ key ≠ "" ∧ '=' ∉ key.toList := by
  have hchars : text.toList = key.toList ++ '=' :: value.toList ↔ text = key ++ "=" ++ value := by
    rw [← String.toList_inj]
    simp
  rw [← hchars, pair?]
  constructor
  · intro h
    split at h
    · next c l v hs =>
      cases h
      obtain ⟨htext, hc⟩ := splitFirst?_eq_some.1 hs
      simp only [String.toList_ofList]
      exact ⟨htext, by simp [← String.toList_inj], hc⟩
    · cases h
  · rintro ⟨htext, hne, hkey⟩
    rw [splitFirst?_eq_some.2 ⟨htext, hkey⟩]
    cases hk : key.toList with
    | nil => exact absurd (String.toList_inj.1 hk) hne
    | cons c l => simp [← hk]

theorem pair?_isSome : (pair? text).isSome ↔ '=' ∈ text.toList ∧ text.toList.head? ≠ some '=' := by
  rw [Option.isSome_iff_exists]
  constructor
  · rintro ⟨⟨key, value⟩, h⟩
    obtain ⟨rfl, hne, hkey⟩ := pair?_eq_some.1 h
    refine ⟨by simp, ?_⟩
    cases hk : key.toList with
    | nil => exact absurd (String.toList_inj.1 hk) hne
    | cons c l =>
        rw [hk] at hkey
        simpa [hk] using (List.ne_of_not_mem_cons hkey).symm
  · rintro ⟨hmem, hhead⟩
    obtain ⟨key, value, htext, hkey⟩ := List.eq_append_cons_of_mem hmem
    refine ⟨(String.ofList key, String.ofList value), pair?_eq_some.2 ⟨?_, ?_, by simpa using hkey⟩⟩
    · rw [← String.toList_inj, htext]
      simp
    · rintro hempty
      rw [htext, String.ofList_eq_empty_iff.1 hempty] at hhead
      exact hhead rfl

end Arguments

namespace Settings

variable {s : Settings} {args : Arguments} {options : Options} {e : Failure}

/-- The names of links come from the arguments if there are any. -/
def linkNames (s : Settings) (args : Arguments) : List String := if args.links.isEmpty then s.links else args.links

/-- The options that settings and arguments make together. -/
structure Merges (s : Settings) (args : Arguments) (options : Options) : Prop where
  source : args.source.or s.source = some options.sourceRoot
  output : args.output.or s.output = some options.outputRoot
  ignore : options.ignore = s.ignore ++ args.ignore
  scope : ∀ key, options.scope.get? key = ((args.scope.reverse.lookup key).map Json.text).or (s.scope.reverse.lookup key)
  ascending : options.scope.fields.Ascending
  links : options.links.map LinkKind.name = linkNames s args
  clean : options.clean = true ↔ args.noClean = false ∧ s.clean ≠ some false
  hash : options.hash = true ↔ args.hash = true ∨ s.hash = some true

/-- Why settings and arguments make no options: the first thing that is wanting, or the first name that no link has. -/
inductive Refuses (s : Settings) (args : Arguments) : Failure → Prop
  | noSource (hsource : args.source = .none ∧ s.source = .none) : Refuses s args (.settings .noSource)
  | noOutput (hsource : args.source.isSome ∨ s.source.isSome) (houtput : args.output = .none ∧ s.output = .none) :
      Refuses s args (.settings .noOutput)
  | unknownLink {before name after} (hsource : args.source.isSome ∨ s.source.isSome)
      (houtput : args.output.isSome ∨ s.output.isSome) (hnames : linkNames s args = before ++ name :: after)
      (hbefore : ∀ n ∈ before, ∃ kind : LinkKind, kind.name = n) (hname : ∀ kind : LinkKind, kind.name ≠ name) :
      Refuses s args (.unknownLink name)

theorem get?_mergedScope (s : Settings) (args : Arguments) (key : String) : (mergedScope s args).get? key =
    ((args.scope.reverse.lookup key).map Json.text).or (s.scope.reverse.lookup key) := by
  rw [mergedScope, Scope.get?, Scope.ofPairs, Table.get?_ofPairs_last, List.reverse_append, List.lookup_append,
    ← List.map_reverse]
  congr 1
  induction args.scope.reverse with
  | nil => rfl
  | cons p pairs ih =>
      rw [List.map_cons, List.lookup_cons, List.lookup_cons, ih]
      cases key == p.1 <;> rfl

theorem toOptions_eq (s : Settings) (args : Arguments) {source output : Path} (hsource : args.source.or s.source = some source)
    (houtput : args.output.or s.output = some output) :
    s.toOptions args = (LinkKind.ofNames (linkNames s args)).map fun links =>
      ⟨source, output, mergedScope s args, s.ignore ++ args.ignore, links, !args.noClean && s.clean.getD true,
        args.hash || s.hash.getD false⟩ := by
  rw [toOptions, hsource, houtput]
  rfl

theorem toOptions_eq_ok : s.toOptions args = .ok options ↔ Merges s args options := by
  constructor
  · intro h
    cases hsource : args.source.or s.source with
    | none => simp [toOptions, hsource] at h
    | some source =>
        cases houtput : args.output.or s.output with
        | none => simp [toOptions, hsource, houtput] at h
        | some output =>
            rw [toOptions_eq s args hsource houtput] at h
            cases hlinks : LinkKind.ofNames (linkNames s args) with
            | error e => rw [hlinks] at h; cases h
            | ok links =>
                rw [hlinks] at h
                cases h
                refine ⟨hsource, houtput, rfl, get?_mergedScope s args, Table.ascending_ofPairs _,
                  LinkKind.ofNames_eq_ok.1 hlinks, ?clean, ?hash⟩
                case clean => rcases s.clean with _ | _ | _ <;> simp
                case hash => rcases s.hash with _ | _ | _ <;> simp
  · intro h
    rw [toOptions_eq s args h.source h.output, LinkKind.ofNames_eq_ok.2 h.links]
    have hscope : mergedScope s args = options.scope := by
      have hfields : (mergedScope s args).fields = options.scope.fields :=
        (Table.ascending_ofPairs _).ext h.ascending fun key => (get?_mergedScope s args key).trans (h.scope key).symm
      rw [Scope.mk.injEq]
      exact hfields
    have hclean : (!args.noClean && s.clean.getD true) = options.clean := by
      rw [Bool.eq_iff_iff, h.clean]
      rcases s.clean with _ | _ | _ <;> simp
    have hhash : (args.hash || s.hash.getD false) = options.hash := by
      rw [Bool.eq_iff_iff, h.hash]
      rcases s.hash with _ | _ | _ <;> simp
    rw [hscope, hclean, hhash, ← h.ignore]
    rfl

theorem toOptions_eq_error : s.toOptions args = .error e ↔ Refuses s args e := by
  constructor
  · intro h
    cases hsource : args.source.or s.source with
    | none =>
        simp only [toOptions, hsource] at h
        cases h
        exact .noSource (Option.or_eq_none_iff.1 hsource)
    | some source =>
        have hs : args.source.isSome ∨ s.source.isSome := by
          simpa using congrArg Option.isSome hsource
        cases houtput : args.output.or s.output with
        | none =>
            simp only [toOptions, hsource, houtput] at h
            cases h
            exact .noOutput hs (Option.or_eq_none_iff.1 houtput)
        | some output =>
            have ho : args.output.isSome ∨ s.output.isSome := by
              simpa using congrArg Option.isSome houtput
            rw [toOptions_eq s args hsource houtput] at h
            cases hlinks : LinkKind.ofNames (linkNames s args) with
            | ok links => rw [hlinks] at h; cases h
            | error e' =>
                rw [hlinks] at h
                cases h
                obtain ⟨before, name, after, hnames, hbefore, hname, rfl⟩ := LinkKind.ofNames_eq_error.1 hlinks
                exact .unknownLink hs ho hnames hbefore hname
  · intro h
    cases h with
    | noSource hsource => simp [toOptions, hsource.1, hsource.2]
    | noOutput hsource houtput =>
        obtain ⟨source, hs⟩ := Option.isSome_iff_exists.1 (by simpa using hsource : (args.source.or s.source).isSome)
        simp [toOptions, hs, houtput.1, houtput.2]
    | @unknownLink before name after hsource houtput hnames hbefore hname =>
        obtain ⟨source, hs⟩ := Option.isSome_iff_exists.1 (by simpa using hsource : (args.source.or s.source).isSome)
        obtain ⟨output, ho⟩ := Option.isSome_iff_exists.1 (by simpa using houtput : (args.output.or s.output).isSome)
        rw [toOptions_eq s args hs ho, LinkKind.ofNames_eq_error.2 ⟨before, name, after, hnames, hbefore, hname, rfl⟩]
        rfl

/-- Settings and arguments make exactly the options that merge them, or are refused for the first thing that is wrong.
A pair of the command line is cut at its first equals sign, which does not stand at its start; so a key without
one and any value are read back from the text that joins them. -/
theorem toOptions_merges (s : Settings) (args : Arguments) :
    (∀ options, s.toOptions args = .ok options ↔ Merges s args options) ∧
    (∀ e, s.toOptions args = .error e ↔ Refuses s args e) ∧
    (∀ text key value, Arguments.pair? text = some (key, value) ↔
      text = key ++ "=" ++ value ∧ key ≠ "" ∧ '=' ∉ key.toList) ∧
    ∀ text, (Arguments.pair? text).isSome ↔ '=' ∈ text.toList ∧ text.toList.head? ≠ some '=' :=
  ⟨fun _ => toOptions_eq_ok, fun _ => toOptions_eq_error, fun _ _ _ => Arguments.pair?_eq_some,
    fun _ => Arguments.pair?_isSome⟩

end Settings

end SiteTree
