import SiteTree.Proofs.Yaml.Flow
import SiteTree.Yaml.Node

/-!
The nodes of a JSON document as a YAML text. Reading takes tokens from the front and never mends a mistake; so if none
was made up to the end, the tokens of each part have become its nodes.
-/

namespace SiteTree.Yaml

open Json

/-- The nodes of the parts of a document. Keys and values take turns. -/
inductive Nodes : Part → List Node → Prop
  | bare {text} (htext : IsBare text) : Nodes (.value (.bare text)) [.scalar ⟨String.ofList text, .plain, none⟩]
  | quoted {body text} (hsaid : (∀ a ∈ body, isBreak a = false) → Says body text) :
      Nodes (.value (.quoted body)) [.scalar ⟨String.ofList text, .quoted, none⟩]
  | list {l nodes} (hl : Nodes (.items l) nodes) : Nodes (.value (.list l)) [.sequence none nodes true]
  | object {l nodes} (hl : Nodes (.fields l) nodes) : Nodes (.value (.object l)) [.mapping none nodes true]
  | item {d nodes} (hd : Nodes (.value d) nodes) : Nodes (.item d) nodes
  | noItems : Nodes (.items []) []
  | items {d l node nodes} (hd : Nodes (.item d) [node]) (hl : Nodes (.items l) nodes) : Nodes (.items (d :: l)) (node :: nodes)
  | field {key d text node} (hsaid : Says key text) (hd : Nodes (.item d) [node]) :
      Nodes (.field key d) [.scalar ⟨String.ofList text, .quoted, none⟩, node]
  | noFields : Nodes (.fields []) []
  | fields {key d l a b nodes} (hd : Nodes (.field key d) [a, b]) (hl : Nodes (.fields l) nodes) :
      Nodes (.fields ((key, d) :: l)) (a :: b :: nodes)

namespace Build

variable {α β : Type} {m : Build α} {f : α → Build β} {d : Draft} {t : Token} {ts ts' : List Token} {P : α → Prop}
  {Q : β → Prop}

/-- Tokens are only taken, and what is broken stays broken. -/
def Keeps (m : Build α) : Prop :=
  ∀ d, (m.run d).2.broken = false → d.broken = false ∧ (m.run d).2.tokens <:+ d.tokens

theorem Keeps.pure (a : α) : Keeps (pure a : Build α) := fun _ h => ⟨h, List.suffix_refl _⟩

theorem Keeps.bind (hm : Keeps m) (hf : ∀ a, Keeps (f a)) : Keeps (m >>= f) := by
  intro d h
  obtain ⟨hbroken, htokens⟩ := hf _ _ h
  obtain ⟨hbroken', htokens'⟩ := hm d hbroken
  exact ⟨hbroken', htokens.trans htokens'⟩

theorem Keeps.map {g : α → β} (hm : Keeps m) : Keeps (g <$> m) := fun d h => hm d h

theorem Keeps.get : Keeps (get : Build Draft) := fun _ h => ⟨h, List.suffix_refl _⟩

theorem Keeps.modify {g : Draft → Draft} (h : ∀ d, (g d).broken = d.broken ∧ (g d).tokens = d.tokens) :
    Keeps (modify g : Build Unit) := fun d hbroken => by
  have hbroken' : (g d).broken = false := hbroken
  exact ⟨(h d).1 ▸ hbroken', (h d).2 ▸ List.suffix_refl _⟩

theorem Keeps.fail : Keeps fail := fun _ h => nomatch h

theorem Keeps.drop : Keeps drop := fun _ h => ⟨h, List.drop_suffix 1 _⟩

theorem Keeps.count (n : Nat) : Keeps (count n) := .modify fun _ => ⟨rfl, rfl⟩

theorem Keeps.isBroken : Keeps isBroken := .bind .get fun _ => .pure _

theorem Keeps.peek : Keeps peek := by
  refine .bind .get fun d => ?_
  split
  · exact .pure _
  · exact .bind .fail fun _ => .pure _

theorem Keeps.begin? (anchor : Option String) : Keeps (begin? anchor) := by
  rw [Build.begin?.eq_def]
  split
  · exact .pure _
  · intro d h
    exact ⟨h, List.suffix_refl _⟩

theorem Keeps.finish (serial : Option Nat) (node : Node) : Keeps (finish serial node) := by
  rw [Build.finish.eq_def]
  split
  · exact .bind (.modify fun _ => ⟨rfl, rfl⟩) fun _ => .pure _
  · exact .bind (.pure _) fun _ => .pure _

theorem Keeps.properties (n : Nat) (p : Properties) : Keeps (properties n p) := by
  induction n generalizing p with
  | zero => exact .pure _
  | succ n ih =>
      rw [Build.properties]
      refine .bind .peek fun _ => ?_
      split
      · exact .bind .drop fun _ => ih _
      · exact .bind .drop fun _ => ih _
      · exact .pure _

theorem Keeps.tagOf (o : Option (String × String)) : Keeps (tagOf o) := by
  rw [Build.tagOf.eq_def]
  split
  · exact .pure _
  · split
    · exact .pure _
    · refine .bind .get fun _ => ?_
      split
      · exact .pure _
      · exact .bind .fail fun _ => .pure _

theorem Keeps.emptyScalar : Keeps emptyScalar := .bind (.count 1) fun _ => .pure _

theorem Keeps.failing (a : α) : Keeps (do Build.fail; return a) := .bind .fail fun _ => .pure a

theorem Keeps.ite {c : Prop} [Decidable c] {m' : Build α} (hm : Keeps m) (hm' : Keeps m') : Keeps (if c then m else m') := by
  split
  · exact hm
  · exact hm'

theorem Keeps.bare (p : Properties) (tag : Option String) : Keeps (bare p tag) := by
  rw [Build.bare.eq_def]
  split
  · exact .bind (.count 1) fun _ => .bind (.begin? _) fun _ => .finish _ _
  · exact .failing none

theorem Keeps.finishList (serial : Option Nat) (tag : Option String) (items : List Node) :
    Keeps (finishList serial tag items) := .bind .isBroken fun _ => .bind (.count 2) fun _ => .finish _ _

theorem Keeps.finishMap (serial : Option Nat) (tag : Option String) (entries : List Node) :
    Keeps (finishMap serial tag entries) := .bind .isBroken fun _ => .bind (.count 2) fun _ => .finish _ _

theorem Keeps.andThen {first : Build (Option Node)} {rest : Build (List Node)} (hfirst : Keeps first) (hrest : Keeps rest) :
    Keeps (andThen first rest) := by
  refine .bind hfirst fun o => ?_
  split
  · exact .pure _
  · refine .bind .isBroken fun _ => ?_
    split
    · exact .pure _
    · exact .bind hrest fun _ => .pure _

theorem Keeps.nodeUnless {ends : Token → Bool} {read : Build (Option Node)} (hread : Keeps read) :
    Keeps (nodeUnless ends read) := by
  refine .bind .peek fun o => ?_
  split
  · exact .pure _
  · split
    · exact .bind .emptyScalar fun _ => .pure _
    · exact hread

/-- All that reads nodes, with so much fuel. -/
structure AllKeep (n : Nat) : Prop where
  node : ∀ block dashed, Keeps (node block dashed n)
  blockItems : Keeps (blockItems n)
  dashedItems : Keeps (dashedItems n)
  blockEntries : Keeps (blockEntries n)
  blockValue : Keeps (blockValue n)
  flowItems : ∀ first, Keeps (flowItems first n)
  flowPair : Keeps (flowPair n)
  flowPairKey : Keeps (flowPairKey n)
  flowPairValue : Keeps (flowPairValue n)
  flowEntries : ∀ first, Keeps (flowEntries first n)
  flowValue : Keeps (flowValue n)

namespace AllKeep

variable {n : Nat}

theorem zero : AllKeep 0 where
  node _ _ := .failing none
  blockItems := .failing []
  dashedItems := .failing []
  blockEntries := .failing []
  blockValue := .failing []
  flowItems _ := .failing []
  flowPair := .failing none
  flowPairKey := .failing none
  flowPairValue := .failing []
  flowEntries _ := .failing []
  flowValue := .failing []

theorem node_succ (h : AllKeep n) (block dashed : Bool) : Keeps (Build.node block dashed (n + 1)) := by
  rw [Build.node]
  refine .bind .peek fun o => ?_
  split
  · refine .bind .get fun _ => ?_
    split
    · exact .bind .drop fun _ => .bind (.count 1) fun _ => .pure _
    · exact .failing none
  · refine .bind (.properties 2 _) fun p => .bind (.tagOf p.tag) fun tag => .bind .peek fun o => ?_
    split
    · exact .pure _
    · split
      · exact .bind .drop fun _ => .bind (.count 1) fun _ => .bind (.begin? _) fun _ => .finish _ _
      · exact .bind .drop fun _ => .bind (.begin? _) fun _ => .bind (h.flowItems true) fun _ => .finishList _ _ _
      · exact .bind .drop fun _ => .bind (.begin? _) fun _ => .bind (h.flowEntries true) fun _ => .finishMap _ _ _
      · exact .bind .drop fun _ => .bind (.begin? _) fun _ => .bind h.blockItems fun _ => .finishList _ _ _
      · exact .bind .drop fun _ => .bind (.begin? _) fun _ => .bind h.blockEntries fun _ => .finishMap _ _ _
      · split
        · exact .bind (.begin? _) fun _ => .bind h.dashedItems fun _ => .finishList _ _ _
        · exact .bare _ _
      · exact .bare _ _

theorem blockItems_succ (h : AllKeep n) : Keeps (Build.blockItems (n + 1)) := by
  rw [Build.blockItems]
  refine .bind .peek fun o => ?_
  split
  · exact .bind .drop fun _ => .andThen (.nodeUnless (h.node true false)) h.blockItems
  · exact .bind .drop fun _ => .pure _
  · exact .failing []

theorem dashedItems_succ (h : AllKeep n) : Keeps (Build.dashedItems (n + 1)) := by
  rw [Build.dashedItems]
  refine .bind .peek fun o => ?_
  split
  · exact .bind .drop fun _ => .andThen (.nodeUnless (h.node true false)) h.dashedItems
  · exact .pure _

theorem blockEntries_succ (h : AllKeep n) : Keeps (Build.blockEntries (n + 1)) := by
  rw [Build.blockEntries]
  refine .bind .peek fun o => ?_
  split
  · exact .bind .drop fun _ => .andThen (.nodeUnless (h.node true true)) h.blockValue
  · exact .bind .drop fun _ => .pure _
  · exact .failing []

theorem blockValue_succ (h : AllKeep n) : Keeps (Build.blockValue (n + 1)) := by
  rw [Build.blockValue]
  refine .bind .peek fun o => ?_
  split
  · exact .pure _
  · exact .bind .drop fun _ => .andThen (.nodeUnless (h.node true true)) h.blockEntries
  · exact .andThen (.map .emptyScalar) h.blockEntries

theorem flowItems_succ (h : AllKeep n) (first : Bool) : Keeps (Build.flowItems first (n + 1)) := by
  rw [Build.flowItems]
  refine .bind .peek fun o => ?_
  split
  · exact .bind .drop fun _ => .pure _
  · exact .pure _
  · refine .ite (.failing []) (.ite (.bind .drop fun _ => ?_) ?_)
    all_goals
      refine .bind .peek fun o => ?_
      split
      · exact .pure _
      · exact .bind .drop fun _ => .pure _
      · exact .bind .drop fun _ => .andThen h.flowPair (h.flowItems false)
      · exact .andThen (h.node false false) (h.flowItems false)

theorem flowPair_succ (h : AllKeep n) : Keeps (Build.flowPair (n + 1)) := by
  rw [Build.flowPair]
  exact .bind (.andThen h.flowPairKey h.flowPairValue) fun _ => .bind .isBroken fun _ => .bind (.count 2) fun _ => .pure _

theorem flowPairKey_succ (h : AllKeep n) : Keeps (Build.flowPairKey (n + 1)) := by
  rw [Build.flowPairKey]
  refine .bind .peek fun o => ?_
  split
  · exact .pure _
  · split
    · exact .bind .drop fun _ => .bind .emptyScalar fun _ => .pure _
    · exact h.node false false

theorem flowPairValue_succ (h : AllKeep n) : Keeps (Build.flowPairValue (n + 1)) := by
  rw [Build.flowPairValue]
  refine .bind .peek fun o => ?_
  split
  · exact .pure _
  · exact .bind .drop fun _ => .andThen (.nodeUnless (h.node false false)) (.pure _)
  · exact .bind .emptyScalar fun _ => .pure _

theorem flowEntries_succ (h : AllKeep n) (first : Bool) : Keeps (Build.flowEntries first (n + 1)) := by
  rw [Build.flowEntries]
  refine .bind .peek fun o => ?_
  split
  · exact .bind .drop fun _ => .pure _
  · exact .pure _
  · refine .ite (.failing []) (.ite (.bind .drop fun _ => ?_) ?_)
    all_goals
      refine .bind .peek fun o => ?_
      split
      · exact .pure _
      · exact .bind .drop fun _ => .pure _
      · exact .bind .drop fun _ => .andThen (.nodeUnless (h.node false false)) h.flowValue
      · exact .andThen (h.node false false) (.andThen (.map .emptyScalar) (h.flowEntries false))

theorem flowValue_succ (h : AllKeep n) : Keeps (Build.flowValue (n + 1)) := by
  rw [Build.flowValue]
  refine .bind .peek fun o => ?_
  split
  · exact .pure _
  · exact .bind .drop fun _ => .andThen (.nodeUnless (h.node false false)) (h.flowEntries false)
  · exact .andThen (.map .emptyScalar) (h.flowEntries false)

end AllKeep

theorem allKeep (n : Nat) : AllKeep n := by
  induction n with
  | zero => exact .zero
  | succ n ih =>
      exact ⟨ih.node_succ, ih.blockItems_succ, ih.dashedItems_succ, ih.blockEntries_succ, ih.blockValue_succ,
        ih.flowItems_succ, ih.flowPair_succ, ih.flowPairKey_succ, ih.flowPairValue_succ, ih.flowEntries_succ, ih.flowValue_succ⟩

theorem Keeps.directives (n : Nat) (versioned : Bool) (seen : List String) : Keeps (directives n versioned seen) := by
  induction n generalizing versioned seen with
  | zero => exact .pure _
  | succ n ih =>
      rw [Build.directives]
      refine .bind .peek fun o => ?_
      split
      · split
        · exact .fail
        · exact .bind .drop fun _ => ih _ _
      · split
        · exact .fail
        · exact .bind .drop fun _ => .bind (.modify fun _ => ⟨rfl, rfl⟩) fun _ => ih _ _
      · exact .pure _

theorem Keeps.root (fuel : Nat) : Keeps (root fuel) := by
  rw [Build.root.eq_def]
  refine .bind .peek fun o => ?_
  split
  · exact .pure _
  · exact .pure _
  · refine .ite ((allKeep fuel).node true false) (.bind (.directives _ _ _) fun _ => .bind .peek fun o => ?_)
    split
    · exact .bind .drop fun _ => .nodeUnless ((allKeep fuel).node true false)
    · exact .failing none

/-- If no mistake is made, just these tokens are taken, and the answer is as said. -/
def Reads (ts : List Token) (m : Build α) (P : α → Prop) : Prop :=
  ∀ d rest, d.tokens = ts ++ rest → d.broken = false → (m.run d).2.broken = false →
    (m.run d).2.tokens = rest ∧ P (m.run d).1

namespace Reads

theorem mono {P' : α → Prop} (h : Reads ts m P) (hP : ∀ a, P a → P' a) : Reads ts m P' :=
  fun d rest hd hwhole hbroken => (h d rest hd hwhole hbroken).imp id (hP _)

theorem pure {a : α} (h : P a) : Reads [] (pure a : Build α) P := fun _ _ hd _ _ => ⟨hd, h⟩

theorem bind (hm : Reads ts m P) (hf : ∀ a, P a → Reads ts' (f a) Q) (hkeeps : ∀ a, Keeps (f a)) :
    Reads (ts ++ ts') (m >>= f) Q := by
  intro d rest hd hwhole hbroken
  have hbroken' := (hkeeps _ _ hbroken).1
  obtain ⟨htokens, ha⟩ := hm d (ts' ++ rest) (by rw [hd, List.append_assoc]) hwhole hbroken'
  exact hf _ ha _ rest htokens hbroken' hbroken

/-- What takes no token and makes no mistake. -/
theorem idle {a : α} (hm : ∀ d, (m.run d).1 = a ∧ (m.run d).2.tokens = d.tokens ∧ (m.run d).2.broken = d.broken)
    (hf : Reads ts (f a) Q) : Reads ts (m >>= f) Q := by
  intro d rest hd hwhole
  obtain ⟨ha, htokens, hbroken⟩ := hm d
  rw [← ha] at hf
  exact hf _ rest (htokens.trans hd) (hbroken.trans hwhole)

theorem fail (a : α) : Reads ts (do Build.fail; return a) P := fun _ _ _ _ h => nomatch h

theorem drop {m : Build α} (h : Reads ts m P) : Reads (t :: ts) (Build.drop >>= fun _ => m) P :=
  fun _ rest hd hwhole => h _ rest (congrArg (List.drop 1) hd) hwhole

theorem peek {g : Option Token → Build α} (h : Reads (t :: ts) (g (some t)) P) :
    Reads (t :: ts) (Build.peek >>= g) P := by
  intro d rest hd hwhole
  have hpeek : (Build.peek >>= g).run d = (g (some t)).run d := by
    obtain ⟨tokens, broken, handles, names, starts, nodes, events⟩ := d
    cases hd
    cases hwhole
    rfl
  rw [hpeek]
  exact h d rest hd hwhole

theorem isBroken {g : Bool → Build α} (h : Reads ts (g false) P) : Reads ts (Build.isBroken >>= g) P := by
  intro d rest hd hwhole
  have hrun : (Build.isBroken >>= g).run d = (g d.broken).run d := rfl
  rw [hrun, hwhole]
  exact h d rest hd hwhole

theorem count {g : Unit → Build α} {n : Nat} (h : Reads ts (g ()) P) : Reads ts (Build.count n >>= g) P :=
  idle (fun _ => ⟨rfl, rfl, rfl⟩) h

theorem begin? {g : Option Nat → Build α} (h : Reads ts (g none) P) : Reads ts (Build.begin? none >>= g) P :=
  idle (fun _ => ⟨rfl, rfl, rfl⟩) h

theorem finishList {items : List Node} {P : Option Node → Prop} (h : P (some (.sequence none items true))) :
    Reads [] (Build.finishList none none items) P := isBroken (count (pure h))

theorem finishMap {entries : List Node} {P : Option Node → Prop} (h : P (some (.mapping none entries true))) :
    Reads [] (Build.finishMap none none entries) P := isBroken (count (pure h))

/-- A node, and then what follows it. -/
theorem andThen {first : Build (Option Node)} {rest : Build (List Node)} {A : Node → Prop} {R : List Node → Prop}
    (hfirst : Reads ts first fun o => ∃ a, o = some a ∧ A a) (hrest : Reads ts' rest R) (hkeeps : Keeps rest) :
    Reads (ts ++ ts') (Build.andThen first rest) fun l => ∃ a l', l = a :: l' ∧ A a ∧ R l' := by
  refine bind hfirst (fun o ho => ?_) fun o => ?_
  · obtain ⟨a, rfl, ha⟩ := ho
    refine isBroken ?_
    rw [← List.append_nil ts']
    exact bind hrest (fun l hl => pure ⟨a, l, rfl, ha, hl⟩) fun _ => .pure _
  · split
    · exact .pure _
    · exact .bind .isBroken fun _ => .ite (.pure _) (.bind hkeeps fun _ => .pure _)

theorem nodeUnless {ends : Token → Bool} {read : Build (Option Node)} {P : Option Node → Prop} (ht : ends t = false)
    (h : Reads (t :: ts) read P) : Reads (t :: ts) (Build.nodeUnless ends read) P := by
  refine peek ?_
  dsimp only
  rw [ht]
  exact h

/-- Tokens that a value of a document begins with. -/
def begins : Token → Bool
  | .scalar _ _ | .flowSequence | .flowMapping => true
  | _ => false

theorem properties {g : Properties → Build α} (ht : begins t = true) (h : Reads (t :: ts) (g ⟨none, none⟩) P) :
    Reads (t :: ts) (Build.properties 2 ⟨none, none⟩ >>= g) P := by
  rw [Build.properties, bind_assoc]
  refine peek ?_
  cases t <;> first | exact h | cases ht

theorem node_scalar {text : String} {style : Style} (block dashed : Bool) (n : Nat) :
    Reads [.scalar text style] (Build.node block dashed n) fun o => o = some (.scalar ⟨text, style, none⟩) := by
  cases n with
  | zero => exact fail none
  | succ n =>
      rw [Build.node]
      exact peek (properties rfl (idle (fun _ => ⟨rfl, rfl, rfl⟩) (peek (drop (count (begin? (pure rfl)))))))

theorem node_sequence {n : Nat} {L : List Node → Prop} (block dashed : Bool) (h : Reads ts (Build.flowItems true n) L) :
    Reads (.flowSequence :: ts) (Build.node block dashed (n + 1)) fun o => ∃ l, o = some (.sequence none l true) ∧ L l := by
  rw [Build.node, ← List.append_nil ts]
  exact peek (properties rfl (idle (fun _ => ⟨rfl, rfl, rfl⟩) (peek (drop (begin?
    (bind h (fun l hl => finishList ⟨l, rfl, hl⟩) fun _ => .finishList _ _ _))))))

theorem node_mapping {n : Nat} {L : List Node → Prop} (block dashed : Bool) (h : Reads ts (Build.flowEntries true n) L) :
    Reads (.flowMapping :: ts) (Build.node block dashed (n + 1)) fun o => ∃ l, o = some (.mapping none l true) ∧ L l := by
  rw [Build.node, ← List.append_nil ts]
  exact peek (properties rfl (idle (fun _ => ⟨rfl, rfl, rfl⟩) (peek (drop (begin?
    (bind h (fun l hl => finishMap ⟨l, rfl, hl⟩) fun _ => .finishMap _ _ _))))))

theorem noItems (first : Bool) (n : Nat) : Reads [.flowSequenceEnd] (Build.flowItems first n) fun l => l = [] := by
  cases n with
  | zero => exact fail []
  | succ n =>
      rw [Build.flowItems]
      exact peek (drop (pure rfl))

theorem noEntries (first : Bool) (n : Nat) : Reads [.flowMappingEnd] (Build.flowEntries first n) fun l => l = [] := by
  cases n with
  | zero => exact fail []
  | succ n =>
      rw [Build.flowEntries]
      exact peek (drop (pure rfl))

/-- The comma between items, and between fields. -/
def separator (first : Bool) : List Token := if first then [] else [.flowEntry]

theorem item {n : Nat} {L : List Node → Prop} (first : Bool) (ht : begins t = true)
    (h : Reads (t :: ts) (Build.andThen (Build.node false false n) (Build.flowItems false n)) L) :
    Reads (separator first ++ t :: ts) (Build.flowItems first (n + 1)) L := by
  rw [Build.flowItems]
  cases first with
  | true =>
      refine peek ?_
      cases t <;> first | exact peek h | cases ht
  | false =>
      refine peek (drop (peek ?_))
      cases t <;> first | exact h | cases ht

theorem entry {n : Nat} {L : List Node → Prop} (first : Bool)
    (h : Reads ts (Build.andThen (Build.nodeUnless (fun t => t = .value || t = .flowEntry || t = .flowMappingEnd)
      (Build.node false false n)) (Build.flowValue n)) L) :
    Reads (separator first ++ .key :: ts) (Build.flowEntries first (n + 1)) L := by
  rw [Build.flowEntries]
  cases first with
  | true => exact peek (peek (drop h))
  | false => exact peek (drop (peek (drop h)))

theorem strayEntry {n : Nat} {L : List Node → Prop} {text : String} {style : Style} (first : Bool)
    (h : Reads (.scalar text style :: ts) (Build.andThen (Build.node false false n)
      (Build.andThen (some <$> Build.emptyScalar) (Build.flowEntries false n))) L) :
    Reads (separator first ++ .scalar text style :: ts) (Build.flowEntries first (n + 1)) L := by
  rw [Build.flowEntries]
  cases first with
  | true => exact peek (peek h)
  | false => exact peek (drop (peek h))

theorem value {n : Nat} {A : Node → Prop} {L : List Node → Prop} (ht : begins t = true)
    (hnode : ∀ n, Reads (t :: ts) (Build.node false false n) fun o => ∃ a, o = some a ∧ A a)
    (hrest : ∀ n, Reads ts' (Build.flowEntries false n) L) :
    Reads (.value :: (t :: ts ++ ts')) (Build.flowValue n) fun l => ∃ a l', l = a :: l' ∧ A a ∧ L l' := by
  cases n with
  | zero => exact fail []
  | succ n =>
      rw [Build.flowValue]
      refine peek (drop (andThen (nodeUnless ?_ (hnode n)) (hrest n) ((allKeep n).flowEntries false)))
      cases t <;> first | rfl | cases ht

theorem emptyScalar : Reads [] (some <$> Build.emptyScalar) fun o => ∃ a, o = some a ∧ True :=
  fun _ _ hd _ _ => ⟨hd, _, rfl, trivial⟩

/-- A value without a key is a mistake. -/
theorem strayValue (n : Nat) : Reads (.value :: ts) (Build.flowEntries false n) fun _ => False := by
  cases n with
  | zero => exact fail []
  | succ n =>
      rw [Build.flowEntries]
      exact peek (fail [])

end Reads

open Reads (begins separator)

theorem exists_begins {e : Written} (h : Tokens (.item e) ts) : ∃ t ts', ts = t :: ts' ∧ begins t = true := by
  cases h with
  | item h => cases h <;> exact ⟨_, _, rfl, rfl⟩

/-- How the tokens of a part are read: a value as a node, a list or an object inside its brackets, and a field with what
follows it. -/
def Parses (ts : List Token) : Part → Prop
  | .value e => ∀ n block dashed, Reads ts (node block dashed n) fun o => ∃ a, o = some a ∧ Nodes (.value e) [a]
  | .item e => ∀ n block dashed, Reads ts (node block dashed n) fun o => ∃ a, o = some a ∧ Nodes (.item e) [a]
  | .items l => ∀ n first, (first = false → l ≠ []) →
      Reads (separator first ++ (ts ++ [.flowSequenceEnd])) (flowItems first n) (Nodes (.items l))
  | .field key e => ∀ n first ts' R, (∀ n, Reads ts' (flowEntries false n) R) →
      Reads (separator first ++ (ts ++ ts')) (flowEntries first n) fun l =>
        ∃ a b l', l = a :: b :: l' ∧ Nodes (.field key e) [a, b] ∧ R l'
  | .fields l => ∀ n first, (first = false → l ≠ []) →
      Reads (separator first ++ (ts ++ [.flowMappingEnd])) (flowEntries first n) (Nodes (.fields l))

/-- The tokens of a part become its nodes, unless a mistake is made. -/
theorem parses {p : Part} (h : Tokens p ts) : Parses ts p := by
  induction h with
  | bare htext => exact fun n block dashed => (Reads.node_scalar block dashed n).mono fun o ho => ⟨_, ho, .bare htext⟩
  | quoted hsaid => exact fun n block dashed => (Reads.node_scalar block dashed n).mono fun o ho => ⟨_, ho, .quoted hsaid⟩
  | list hl ih =>
      intro n block dashed
      cases n with
      | zero => exact .fail none
      | succ n =>
          refine (Reads.node_sequence block dashed (ih n true (by simp))).mono fun o ho => ?_
          obtain ⟨l, ho, hl⟩ := ho
          exact ⟨_, ho, .list hl⟩
  | object hl ih =>
      intro n block dashed
      cases n with
      | zero => exact .fail none
      | succ n =>
          refine (Reads.node_mapping block dashed (ih n true (by simp))).mono fun o ho => ?_
          obtain ⟨l, ho, hl⟩ := ho
          exact ⟨_, ho, .object hl⟩
  | item hd ih =>
      refine fun n block dashed => (ih n block dashed).mono fun o ho => ?_
      obtain ⟨a, ho, ha⟩ := ho
      exact ⟨a, ho, .item ha⟩
  | noItems =>
      intro n first hfirst
      cases first with
      | false => exact absurd rfl (hfirst rfl)
      | true => exact (Reads.noItems true n).mono fun l hl => hl ▸ .noItems
  | @lastItem e ts hd ih =>
      intro n first _
      obtain ⟨t, ts, rfl, ht⟩ := exists_begins hd
      cases n with
      | zero => exact .fail []
      | succ n =>
          refine (Reads.item first ht (.andThen (ih n false false) (Reads.noItems false n) ((allKeep n).flowItems false))).mono
            fun l hl => ?_
          obtain ⟨a, l, rfl, ha, rfl⟩ := hl
          exact .items ha .noItems
  | @items d e l ts ts' hd hl ihd ihl =>
      intro n first _
      obtain ⟨t, ts, rfl, ht⟩ := exists_begins hd
      rw [List.append_assoc, List.cons_append]
      cases n with
      | zero => exact .fail []
      | succ n =>
          refine (Reads.item first ht (.andThen (ihd n false false) (ihl n false (by simp)) ((allKeep n).flowItems false))).mono
            fun l hl => ?_
          obtain ⟨a, l, rfl, ha, hl⟩ := hl
          exact .items ha hl
  | field hsaid hd ih =>
      intro n first ts' R hR
      obtain ⟨t, ts, rfl, ht⟩ := exists_begins hd
      cases n with
      | zero => exact .fail []
      | succ n =>
          refine (Reads.entry first (.andThen (.nodeUnless rfl ((Reads.node_scalar false false n).mono fun o ho => ⟨_, ho, rfl⟩))
            (.value ht (fun n => ih n false false) hR) (allKeep n).flowValue)).mono fun l hl => ?_
          obtain ⟨a, l, rfl, rfl, b, l', rfl, hb, hl'⟩ := hl
          exact ⟨_, b, l', rfl, .field hsaid hb, hl'⟩
  | stray hd ih =>
      intro n first ts' R hR
      cases n with
      | zero => exact .fail []
      | succ n =>
          refine (Reads.strayEntry first (.andThen ((Reads.node_scalar false false n).mono fun o ho => ⟨_, ho, rfl⟩)
            (.andThen Reads.emptyScalar (Reads.strayValue n) ((allKeep n).flowEntries false))
            (.andThen (.map .emptyScalar) ((allKeep n).flowEntries false)))).mono fun l hl => ?_
          obtain ⟨-, -, -, -, -, -, -, -, hno⟩ := hl
          exact hno.elim
  | noFields =>
      intro n first hfirst
      cases first with
      | false => exact absurd rfl (hfirst rfl)
      | true => exact (Reads.noEntries true n).mono fun l hl => hl ▸ .noFields
  | lastField hd ih =>
      intro n first _
      refine (ih n first _ _ (Reads.noEntries false)).mono fun l hl => ?_
      obtain ⟨a, b, l, rfl, hab, rfl⟩ := hl
      exact .fields hab .noFields
  | fields hd hl ihd ihl =>
      intro n first _
      rw [List.append_assoc, List.cons_append]
      refine (ihd n first _ _ fun n => ihl n false (by simp)).mono fun l hl => ?_
      obtain ⟨a, b, l, rfl, hab, hl⟩ := hl
      exact .fields hab hl

theorem Reads.root {e : Written} (h : Tokens (.item e) ts) (fuel : Nat) :
    Reads ts (Build.root fuel) fun o => ∃ a, o = some a ∧ Nodes (.item e) [a] := by
  have hnode := parses h fuel true false
  obtain ⟨t, ts, rfl, ht⟩ := exists_begins h
  refine .peek ?_
  cases t <;> first | exact hnode | cases ht

end Build

/-- A document is something. -/
theorem Document.not_blank {text : String} {e : Written} (h : IsDocument text e) : (Document.ofText text).blank = false := by
  suffices hne : Token.ofText text ≠ [.streamEnd] by
    change (_ && decide (Token.ofText text = [.streamEnd])) = false
    simp [hne]
  intro hblank
  obtain ⟨l, hl, htokens⟩ := Token.ofText_document h (by rw [hblank]; exact List.mem_singleton_self _)
  obtain ⟨t, ts, rfl, -⟩ := Build.exists_begins hl
  rw [htokens] at hblank
  simp at hblank

theorem mem_of_endsHere {ts : List Token} (h : endsHere ts = true) : Token.streamEnd ∈ ts := by
  induction ts with
  | nil => cases h
  | cons t ts ih =>
      cases t with
      | streamEnd => exact List.mem_cons_self
      | documentEnd => exact List.mem_cons_of_mem _ (ih h)
      | _ => cases h

/-- A JSON document that is read without a mistake has become its nodes. -/
theorem Document.ofText_nodes {text : String} {e : Written} (h : IsDocument text e)
    (hsound : (Document.ofText text).sound = true) :
    ∃ a, (Document.ofText text).root = some a ∧ Nodes (.item e) [a] := by
  let d : Draft := ⟨Token.ofText text, false, [("!", "!"), ("!!", "tag:yaml.org,2002:")], [], [], [], 0⟩
  let read := (Build.root (4 * (Token.ofText text).length + 8)).run d
  have hends : (!read.2.broken && endsHere read.2.tokens) = true := hsound
  simp only [Bool.and_eq_true, Bool.not_eq_true'] at hends
  obtain ⟨hbroken, hends⟩ := hends
  obtain ⟨-, hsuffix⟩ := Build.Keeps.root _ d hbroken
  obtain ⟨l, hl, htokens⟩ := Token.ofText_document h (hsuffix.subset (mem_of_endsHere hends))
  exact (Build.Reads.root hl _ d [.streamEnd] htokens rfl hbroken).2

end SiteTree.Yaml
