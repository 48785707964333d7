import Reckoner.Table

/-!
# Tables that only grow

A new name adds a binding to a table and takes none away. `Le` orders tables by the bindings that
they keep, and `Records` compares a table with a list of the bindings made so far.
-/

namespace Reckoner.Table

variable {α : Type} {t u v : Table α} {name : String}

theorem get?_eq_none (free : t.contains name = false) : t.get? name = none := by
  simpa [contains] using free

theorem contains_insert_of_ne {other : String} (t : Table α) (value : α) (h : other ≠ name) :
    (t.insert name value).contains other = t.contains other := by
  rw [contains, contains, t.get?_insert_of_ne value h]

theorem get?_insert_eq_some {other : String} {value x : α}
    (h : (t.insert name value).get? other = some x) :
    other = name ∧ x = value ∨ t.get? other = some x := by
  by_cases same : other = name
  · subst same
    rw [get?_insert_self] at h
    exact .inl ⟨rfl, (Option.some.inj h).symm⟩
  · rw [t.get?_insert_of_ne value same] at h
    exact .inr h

theorem mem_of_get?_foldl {bindings : List (String × α)} {x : α}
    (h : (bindings.foldl (fun t b => t.insert b.1 b.2) t).get? name = some x) :
    (name, x) ∈ bindings ∨ t.get? name = some x := by
  induction bindings generalizing t with
  | nil => exact .inr h
  | cons b bindings ih =>
      rcases ih h with member | bound
      · exact .inl (.tail b member)
      · rcases get?_insert_eq_some bound with ⟨rfl, rfl⟩ | before
        · exact .inl (.head bindings)
        · exact .inr before

/-- A table made from a list holds nothing that is not on the list. -/
theorem mem_of_get?_ofList {bindings : List (String × α)} {x : α}
    (h : (ofList bindings).get? name = some x) : (name, x) ∈ bindings := by
  rcases mem_of_get?_foldl h with member | bound
  · exact member
  · cases bound

/-- Every name that one table binds has the same value in the other. -/
protected def Le (t u : Table α) : Prop :=
  ∀ name value, t.get? name = some value → u.get? name = some value

protected theorem Le.refl (t : Table α) : t.Le t :=
  fun _ _ found => found

protected theorem Le.trans (h : t.Le u) (h' : u.Le v) : t.Le v :=
  fun name value found => h' name value (h name value found)

theorem le_insert (free : t.contains name = false) (value : α) : t.Le (t.insert name value) := by
  intro other x found
  have ne : other ≠ name := by
    rintro rfl
    rw [get?_eq_none free] at found
    cases found
  rw [t.get?_insert_of_ne value ne, found]

/-- A table holds the bindings of a list and no others, and the list has one for each name. -/
structure Records (t : Table α) (made : List (String × α)) : Prop where
  get?_iff : ∀ name value, t.get? name = some value ↔ (name, value) ∈ made
  nodup : (made.map Prod.fst).Nodup

theorem records_empty : (empty : Table α).Records [] where
  get?_iff _ _ := by simp
  nodup := List.nodup_nil

namespace Records

variable {made : List (String × α)}

theorem notMem (h : t.Records made) (free : t.contains name = false) (value : α) :
    (name, value) ∉ made := by
  intro member
  have found := (h.get?_iff name value).mpr member
  rw [get?_eq_none free] at found
  cases found

theorem insert (h : t.Records made) (free : t.contains name = false) (value : α) :
    (t.insert name value).Records (made ++ [(name, value)]) where
  get?_iff other x := by
    by_cases same : other = name
    · subst same
      rw [get?_insert_self, List.mem_append, List.mem_singleton]
      constructor
      · rintro ⟨⟩
        exact .inr rfl
      · rintro (member | same)
        · exact absurd member (h.notMem free x)
        · rw [(Prod.mk.inj same).2]
    · rw [t.get?_insert_of_ne value same, h.get?_iff, List.mem_append, List.mem_singleton]
      simp [same]
  nodup := by
    rw [List.map_append, List.map_singleton, List.nodup_append]
    refine ⟨h.nodup, by simp, ?_⟩
    rintro bound member _ last rfl
    obtain rfl := List.mem_singleton.mp last
    obtain ⟨⟨_, x⟩, inside, rfl⟩ := List.mem_map.mp member
    exact h.notMem free x inside

theorem contains_eq_false (h : t.Records made) (absent : name ∉ made.map Prod.fst) :
    t.contains name = false := by
  cases found : t.get? name with
  | none => simp [contains, found]
  | some value =>
      have member := (h.get?_iff name value).mp found
      exact absurd (List.mem_map_of_mem member) absent

theorem foldl {bindings : List (String × α)} (h : t.Records made)
    (nodup : ((made ++ bindings).map Prod.fst).Nodup) :
    (bindings.foldl (fun t b => t.insert b.1 b.2) t).Records (made ++ bindings) := by
  induction bindings generalizing t made with
  | nil => rwa [List.append_nil]
  | cons b bindings ih =>
      obtain ⟨bound, value⟩ := b
      rw [List.append_cons] at nodup ⊢
      have first := nodup.sublist ((List.sublist_append_left _ bindings).map Prod.fst)
      rw [List.map_append, List.map_singleton, List.nodup_append] at first
      have absent : bound ∉ made.map Prod.fst := by
        intro member
        exact first.2.2 bound member bound (List.mem_singleton_self bound) rfl
      exact ih (h.insert (h.contains_eq_false absent) value) nodup

end Records

/-- A list with one binding for each name makes the table of these bindings. -/
theorem records_ofList {bindings : List (String × α)} (nodup : (bindings.map Prod.fst).Nodup) :
    (ofList bindings).Records bindings := by
  have empty : Records empty ([] : List (String × α)) := records_empty
  exact empty.foldl nodup

end Reckoner.Table
