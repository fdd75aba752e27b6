/-!
Values under names, kept in ascending order of the names.
-/

namespace SiteTree

abbrev Table (α : Type) := List (String × α)

namespace Table

variable {α : Type}

def get? (key : String) : Table α → Option α
  | [] => none
  | (k, v) :: r => if k = key then some v else get? key r

def insert (key : String) (value : α) : Table α → Table α
  | [] => [(key, value)]
  | (k, v) :: r =>
    if k = key then (key, value) :: r
    else if key < k then (key, value) :: (k, v) :: r
    else (k, v) :: insert key value r

theorem get?_insert (key k : String) (value : α) (table : Table α) :
    get? k (insert key value table) = if key = k then some value else get? k table := by
  induction table with
  | nil => rfl
  | cons a r ih =>
    obtain ⟨b, v⟩ := a
    by_cases h : b = key
    · subst h
      by_cases hk : b = k <;> simp [insert, get?, hk]
    · by_cases hlt : key < b
      · simp [insert, get?, h, hlt]
      · by_cases hb : b = k
        · subst hb
          simp [insert, get?, h, hlt, Ne.symm h]
        · simp [insert, get?, h, hlt, hb, ih]

/-- Of several values for one name the last is kept. -/
def ofPairs (pairs : List (String × α)) : Table α :=
  pairs.foldl (fun table p => insert p.1 p.2 table) []

end Table

end SiteTree
