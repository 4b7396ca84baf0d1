/-!
# Names

Identifiers are strings ordered by code point.  A finite set of names is a
list; `ascending` gives its canonical listing, which is what reports show.
-/

namespace RecursiveQuery

abbrev Name := String

namespace Name

/-- Insert a name into an ascending list unless it is already there. -/
def insertAscending (name : Name) : List Name → List Name
  | [] => [name]
  | head :: tail =>
      match compare name head with
      | .lt => name :: head :: tail
      | .eq => head :: tail
      | .gt => head :: insertAscending name tail

/-- The names of a list in ascending order, each of them once. -/
def ascending (names : List Name) : List Name :=
  names.foldr insertAscending []

end Name

end RecursiveQuery
