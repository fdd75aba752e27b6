import SiteTree.Proofs.Asset.Shelf
import SiteTree.Proofs.FileSystem.Entry
import SiteTree.Proofs.FileSystem.Names

/-!
The assets of the directories of a tree, and changes that put other assets in their place.
-/

namespace SiteTree.Asset

open FileSystem SiteTree.Path Text

variable {fs fs' fs₁ fs₂ : FileSystem} {cwd dir loc x : Location} {p : Path} {name n m : String} {bytes : ByteArray}
  {node : FileNode} {D E : Location → Prop}

/-- The name of a page. -/
def IsPageName (name : String) : Prop := (cutName name.toList).2 = some "html".toList

instance (name : String) : Decidable (IsPageName name) := inferInstanceAs (Decidable (_ = _))

theorem isPage_child (hs : IsName name) (hp : p.text ≠ "") : isPage (p.child name) = true ↔ IsPageName name := by
  rw [isPage, hasExtension, extension?, extensionChars?, fileChars_child hs hp, IsPageName, beq_iff_eq]
  simp [Option.map_eq_some_iff, ← String.toList_inj]

theorem isPageName_stamped {hash : ByteArray} (hs : IsName name) (h : stamp? name (fingerprint hash) = some m) :
    IsPageName m ↔ IsPageName name := by rw [IsPageName, IsPageName, isPage_stamped hs h]

/-- The assets of a directory with their contents. -/
def shelfOf (fs : FileSystem) (dir : Location) : Shelf := fun name =>
  if IsPageName name then none
  else match fs.at? (dir ++ [name]) with
    | some (.file bytes) => some bytes
    | _ => none

def assetsIn (fs : FileSystem) (dir : Location) : List String :=
  (fs.children dir).filter fun name => (shelfOf fs dir name).isSome

theorem shelfOf_eq_some : shelfOf fs dir name = some bytes ↔
    ¬ IsPageName name ∧ fs.at? (dir ++ [name]) = some (.file bytes) := by
  rw [shelfOf]
  by_cases hp : IsPageName name
  · simp [hp]
  · rw [if_neg hp]
    split <;> simp_all

theorem shelfOf_congr (h : ∀ n, ¬ IsPageName n → fs'.at? (dir ++ [n]) = fs.at? (dir ++ [n])) :
    shelfOf fs' dir = shelfOf fs dir := by
  funext n
  by_cases hp : IsPageName n
  · simp [shelfOf, hp]
  · simp [shelfOf, hp, h n hp]

theorem mem_assetsIn : name ∈ assetsIn fs dir ↔ (shelfOf fs dir name).isSome := by
  rw [assetsIn, List.mem_filter, mem_children]
  refine ⟨And.right, fun h => ⟨?_, h⟩⟩
  obtain ⟨bytes, hb⟩ := Option.isSome_iff_exists.1 h
  rw [(shelfOf_eq_some.1 hb).2]
  rfl

theorem assetsIn_sorted (fs : FileSystem) (dir : Location) : (assetsIn fs dir).Pairwise (· < ·) :=
  (children_sorted fs dir).sublist List.filter_sublist

theorem assetsIn_congr (h : shelfOf fs' dir = shelfOf fs dir) : assetsIn fs' dir = assetsIn fs dir :=
  sorted_ext (assetsIn_sorted fs' dir) (assetsIn_sorted fs dir) fun n => by rw [mem_assetsIn, mem_assetsIn, h]

theorem named_shelfOf (h : fs.WellFormed) (dir : Location) : (shelfOf fs dir).Named := by
  intro n hn
  obtain ⟨bytes, hb⟩ := Option.isSome_iff_exists.1 hn
  exact h.isName (by rw [(shelfOf_eq_some.1 hb).2]; rfl)

theorem isName_of_mem_assetsIn (h : fs.WellFormed) (hn : name ∈ assetsIn fs dir) : IsName name :=
  named_shelfOf h dir name (mem_assetsIn.1 hn)

theorem pending_assetsIn (fs : FileSystem) (dir : Location) :
    Shelf.Pending (shelfOf fs dir) (shelfOf fs dir) (assetsIn fs dir) :=
  Shelf.pending_refl fun _ => mem_assetsIn.2

def fileAt? (fs : FileSystem) (x : Location) : Option ByteArray :=
  match fs.at? x with
  | some (.file bytes) => some bytes
  | _ => none

theorem fileAt?_eq_some : fileAt? fs x = some bytes ↔ fs.at? x = some (.file bytes) := by
  rw [fileAt?]
  split <;> simp_all

theorem entry_of_file (h : fs.at? x = some (.file bytes)) : ∃ e ∈ fs.entries, e.1 = x :=
  mem_of_at?_isSome (by rintro rfl; cases h) (by rw [h]; rfl)

/-- A place for an asset in one of the directories. -/
def IsSpot (D : Location → Prop) (x : Location) : Prop := ∃ dir name, D dir ∧ ¬ IsPageName name ∧ x = dir ++ [name]

/-- The assets of the directories have changed, and nothing else. -/
structure Restocked (D : Location → Prop) (fs fs' : FileSystem) : Prop where
  wellFormed : fs'.WellFormed
  node : ∀ x node, ¬ node.IsFile → (fs'.at? x = some node ↔ fs.at? x = some node)
  kept : ∀ x, ¬ IsSpot D x → fs'.at? x = fs.at? x

namespace Restocked

theorem refl (h : fs.WellFormed) (D : Location → Prop) : Restocked D fs fs := ⟨h, fun _ _ _ => Iff.rfl, fun _ _ => rfl⟩

theorem weaken (h : Restocked D fs fs') (hDE : ∀ d, D d → E d) : Restocked E fs fs' :=
  ⟨h.wellFormed, h.node, fun x hx => h.kept x fun ⟨d, n, hd, hn⟩ => hx ⟨d, n, hDE d hd, hn⟩⟩

theorem trans (h : Restocked D fs fs₁) (h' : Restocked D fs₁ fs₂) : Restocked D fs fs₂ :=
  ⟨h'.wellFormed, fun x node hn => (h'.node x node hn).trans (h.node x node hn),
    fun x hx => (h'.kept x hx).trans (h.kept x hx)⟩

theorem directory (h : Restocked D fs fs') : fs'.at? x = some .directory ↔ fs.at? x = some .directory :=
  h.node x .directory FileNode.not_isFile_directory

theorem outgrows (h : Restocked D fs fs') : fs.Outgrows fs' := fun x node hx hn => (h.node x node hn).2 hx

theorem linkFree (h : Restocked D fs fs') (hfree : fs.LinkFree loc) : fs'.LinkFree loc :=
  fun x target hx hl => hfree x target hx ((h.node x _ (FileNode.not_isFile_link target)).1 hl)

theorem leadsTo (h : Restocked D fs fs') (hl : fs.LeadsTo cwd p loc) : fs'.LeadsTo cwd p loc := hl.mono h.outgrows

theorem page (h : Restocked D fs fs') (hp : IsPageName name) : fs'.at? (dir ++ [name]) = fs.at? (dir ++ [name]) := by
  refine h.kept _ ?_
  rintro ⟨d, n, -, hn, he⟩
  obtain ⟨-, he⟩ := List.append_inj' he rfl
  exact hn ((List.cons_eq_cons.1 he).1 ▸ hp)

theorem shelfOf_apart (h : Restocked D fs fs') (hd : ¬ D dir) : shelfOf fs' dir = shelfOf fs dir := by
  refine shelfOf_congr fun n _ => h.kept _ ?_
  rintro ⟨d, k, hD, -, he⟩
  exact hd ((List.append_inj' he rfl).1 ▸ hD)

end Restocked

end SiteTree.Asset
