import RecursiveQuery.Name

/-!
# Finite maps from names

An association list in which the first entry of a name counts; look-up is
`List.lookup`.
-/

namespace RecursiveQuery

abbrev NameMap (α : Type) := List (Name × α)

namespace NameMap

variable {α : Type}

def erase (map : NameMap α) (name : Name) : NameMap α :=
  map.filter fun (key, _) => key != name

/-- Give a name its only entry. -/
def insert (map : NameMap α) (name : Name) (value : α) : NameMap α :=
  (name, value) :: map.erase name

def contains (map : NameMap α) (name : Name) : Bool :=
  (map.lookup name).isSome

def keys (map : NameMap α) : List Name :=
  map.map Prod.fst

end NameMap

end RecursiveQuery
