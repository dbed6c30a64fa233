/-!
# `Table` — finite maps from names

A table is a list of bindings. The value of a name is the one at its first binding, and `get?` is the
view through which every operation is described. A name keeps its place when it is bound again, so equal
histories give equal tables.

## Contents
- `get?`, `contains`, `names` — reading;
- `insert`, `insertAll`, `modify` — writing, with what each does to the view.
-/

namespace Abacus

/-- Values bound to names. -/
structure Table (α : Type) where
  entries : List (String × α)
deriving Repr, DecidableEq

namespace Table

variable {α : Type}

/-! ## Reading -/

/-- The table without bindings. -/
def empty : Table α := ⟨[]⟩

instance : EmptyCollection (Table α) := ⟨empty⟩
instance : Inhabited (Table α) := ⟨empty⟩

/-- The value at the first binding of `name` in a list of bindings. -/
def findEntry (name : String) : List (String × α) → Option α
  | [] => none
  | entry :: rest => if name = entry.1 then some entry.2 else findEntry name rest

/-- The value bound to `name`. -/
def get? (table : Table α) (name : String) : Option α := findEntry name table.entries

/-- Tells whether `name` is bound. -/
def contains (table : Table α) (name : String) : Bool := (table.get? name).isSome

/-- The bound names. -/
def names (table : Table α) : List String := table.entries.map Prod.fst

/-! ## Writing -/

/-- Binds `name` to `value` in a list of bindings, in place if it is bound already. -/
def insertEntry (name : String) (value : α) : List (String × α) → List (String × α)
  | [] => [(name, value)]
  | entry :: rest =>
    if name = entry.1 then (name, value) :: rest else entry :: insertEntry name value rest

/-- Binds `name` to `value`. -/
def insert (table : Table α) (name : String) (value : α) : Table α :=
  ⟨insertEntry name value table.entries⟩

/-- Binds each name to its value, from left to right. -/
def insertAll (table : Table α) (bindings : List (String × α)) : Table α :=
  bindings.foldl (fun table binding => table.insert binding.1 binding.2) table

/-- Replaces the value bound to `name`, if there is one. -/
def modify (table : Table α) (name : String) (change : α → α) : Table α :=
  match table.get? name with
  | some value => table.insert name (change value)
  | none => table

/-! ## The view -/

/-- What was bound last is found, and other names keep what they had. -/
theorem findEntry_insertEntry (name other : String) (value : α) (entries : List (String × α)) :
    findEntry other (insertEntry name value entries) =
      if other = name then some value else findEntry other entries := by
  induction entries with
  | nil => simp [insertEntry, findEntry]
  | cons entry rest ih => grind [insertEntry, findEntry]

@[simp] theorem get?_empty (name : String) : (empty : Table α).get? name = none := rfl

/-- After binding `name`, it reads as the new value and every other name as before. -/
@[simp] theorem get?_insert (table : Table α) (name other : String) (value : α) :
    (table.insert name value).get? other = if other = name then some value else table.get? other :=
  findEntry_insertEntry name other value table.entries

/-- Modifying `name` changes what it reads as, and no other name. -/
@[simp] theorem get?_modify (table : Table α) (name other : String) (change : α → α) :
    (table.modify name change).get? other =
      if other = name then (table.get? name).map change else table.get? other := by
  unfold modify
  by_cases h : other = name
  · subst h
    cases hg : table.get? other <;> simp [hg]
  · cases hg : table.get? name <;> simp [h]

end Table
end Abacus
