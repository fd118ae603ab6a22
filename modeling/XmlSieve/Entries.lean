/-!
# Entries

Named entries in the order in which their names were first inserted: the attributes of an element,
its keyed children, the listeners of a stream.  `Entries.insert` keeps the place of a name that is
already there, and `Entries.erase` keeps the order of the others.
-/

namespace XmlSieve

/-- Values by name, in the order in which the names were first inserted. -/
abbrev Entries (α : Type) := List (String × α)

namespace Entries

variable {α : Type}

/-- The value under `name`. -/
def get? (name : String) : Entries α → Option α
  | [] => none
  | (key, value) :: rest => if key = name then some value else get? name rest

/-- Puts `value` under `name`: in its place if the name is there, else at the end. -/
def insert (name : String) (value : α) : Entries α → Entries α
  | [] => [(name, value)]
  | (key, old) :: rest =>
    if key = name then (key, value) :: rest else (key, old) :: insert name value rest

/-- Removes `name`. -/
def erase (name : String) : Entries α → Entries α
  | [] => []
  | (key, value) :: rest => if key = name then rest else (key, value) :: erase name rest

/-- The entries after inserting `pairs` one by one. -/
def ofPairs (pairs : List (String × α)) : Entries α :=
  pairs.foldl (fun entries (name, value) => insert name value entries) []

/-- The names, in order. -/
def names (entries : Entries α) : List String := entries.map (·.1)

end Entries

end XmlSieve
