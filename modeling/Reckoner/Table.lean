/-!
# Tables of names

A table binds each name at most once. `insert` replaces an earlier binding of the same name, so in
a table made from a list the last binding of a name is the one that counts.
-/

namespace Reckoner

structure Table (α : Type) where
  entries : List (String × α)
  nodup : (entries.map Prod.fst).Nodup

namespace Table

variable {α : Type}

def empty : Table α := ⟨[], List.nodup_nil⟩

instance : EmptyCollection (Table α) := ⟨empty⟩

instance : Inhabited (Table α) := ⟨empty⟩

/-- What a name is bound to. -/
def get? (t : Table α) (name : String) : Option α :=
  t.entries.lookup name

def contains (t : Table α) (name : String) : Bool :=
  (t.get? name).isSome

/-- The bound names, the latest first. -/
def names (t : Table α) : List String :=
  t.entries.map Prod.fst

/-- Binds a name, in place of what it was bound to before. -/
def insert (t : Table α) (name : String) (value : α) : Table α where
  entries := (name, value) :: t.entries.filter (·.1 != name)
  nodup := by
    rw [List.map_cons, List.nodup_cons]
    refine ⟨?_, t.nodup.sublist (List.Sublist.map _ List.filter_sublist)⟩
    simp

/-- The table of a list of bindings, later ones replacing earlier ones. -/
def ofList (bindings : List (String × α)) : Table α :=
  bindings.foldl (fun t b => t.insert b.1 b.2) empty

@[simp] theorem get?_empty (name : String) : (empty : Table α).get? name = none := rfl

@[simp] theorem get?_insert_self (t : Table α) (name : String) (value : α) :
    (t.insert name value).get? name = some value := by
  simp [get?, insert]

theorem get?_insert_of_ne (t : Table α) {name other : String} (value : α) (h : other ≠ name) :
    (t.insert name value).get? other = t.get? other := by
  have skip : (other == name) = false := by simp [h]
  simp only [get?, insert, List.lookup_cons, skip]
  induction t.entries with
  | nil => rfl
  | cons e es ih =>
      obtain ⟨bound, v⟩ := e
      by_cases he : bound = name
      · simp [List.lookup_cons, he, skip, ih]
      · cases hb : other == bound <;> simp [List.lookup_cons, he, hb, ih]

end Table

end Reckoner
