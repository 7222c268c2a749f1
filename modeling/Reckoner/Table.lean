/-! Tables keyed by names. A table remembers the order in which its names were first bound:
binding a name again replaces the value and keeps the place. -/

namespace Reckoner

structure Table (α : Type) where
  entries : List (String × α)

namespace Table

variable {α β : Type}

def empty : Table α := ⟨[]⟩

instance : EmptyCollection (Table α) := ⟨empty⟩
instance : Inhabited (Table α) := ⟨empty⟩

def names (table : Table α) : List String := table.entries.map Prod.fst

def size (table : Table α) : Nat := table.entries.length

def isEmpty (table : Table α) : Bool := table.entries.isEmpty

def lookup (name : String) : List (String × α) → Option α
  | [] => none
  | (key, value) :: rest => if key = name then some value else lookup name rest

def get? (table : Table α) (name : String) : Option α := lookup name table.entries

def contains (table : Table α) (name : String) : Bool := (table.get? name).isSome

def put (name : String) (value : α) : List (String × α) → List (String × α)
  | [] => [(name, value)]
  | (key, old) :: rest =>
      if key = name then (key, value) :: rest else (key, old) :: put name value rest

def insert (table : Table α) (name : String) (value : α) : Table α :=
  ⟨put name value table.entries⟩

/-- Binds the pairs one after another, so a repeated name keeps its first place and its last
value. -/
def ofList (pairs : List (String × α)) : Table α :=
  pairs.foldl (fun table pair => table.insert pair.1 pair.2) ∅

/-- Tables agree when they bind the same names to values that `same` accepts, in any order. -/
def agrees (same : α → α → Bool) (left right : Table α) : Bool :=
  left.size == right.size &&
    left.entries.all fun (name, value) => (right.get? name).any (same value)

@[simp] theorem get?_empty (name : String) : (∅ : Table α).get? name = none := rfl

@[simp] theorem names_empty : (∅ : Table α).names = [] := rfl

theorem lookup_put (entries : List (String × α)) (name other : String) (value : α) :
    lookup other (put name value entries) =
      if name = other then some value else lookup other entries := by
  induction entries with
  | nil => simp [put, lookup]
  | cons entry rest ih => grind [put, lookup]

theorem get?_insert (table : Table α) (name other : String) (value : α) :
    (table.insert name value).get? other =
      if name = other then some value else table.get? other :=
  lookup_put table.entries name other value

@[simp] theorem get?_insert_self (table : Table α) (name : String) (value : α) :
    (table.insert name value).get? name = some value := by
  simp [get?_insert]

theorem names_put (entries : List (String × α)) (name : String) (value : α) :
    (put name value entries).map Prod.fst =
      if (lookup name entries).isSome then entries.map Prod.fst
      else entries.map Prod.fst ++ [name] := by
  induction entries with
  | nil => simp [put, lookup]
  | cons entry rest ih =>
      obtain ⟨key, old⟩ := entry
      by_cases hkey : key = name
      · simp [put, lookup, hkey]
      · simp only [put, lookup, hkey, if_false, List.map_cons, ih]
        split <;> simp

theorem names_insert (table : Table α) (name : String) (value : α) :
    (table.insert name value).names =
      if table.contains name then table.names else table.names ++ [name] :=
  names_put table.entries name value

end Table

end Reckoner
