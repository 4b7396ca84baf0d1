import RecursiveQuery.Name

/-!
# Fresh names

A supply remembers the names in use.  A fresh name is the stem of a given name
with the least index that is still free, so equal supplies give equal names.
-/

namespace RecursiveQuery

namespace Name

/-- A name without a trailing `_` and digits; nothing is dropped if no stem
would be left. -/
def stem (name : Name) : Name :=
  let reversed := name.toList.reverse
  match reversed.takeWhile Char.isDigit, reversed.dropWhile Char.isDigit with
  | _ :: _, '_' :: char :: rest => String.ofList (char :: rest).reverse
  | _, _ => name

/-- A stem with an index behind an underscore. -/
def indexed (stem : Name) (index : Nat) : Name :=
  String.ofList (stem.toList ++ '_' :: Nat.toDigits 10 index)

end Name

structure NameSupply where
  used : List Name

/-- Computations that draw names from a supply. -/
abbrev Naming := StateM NameSupply

namespace NameSupply

def reserving (names : List Name) : NameSupply :=
  ⟨names⟩

def isReserved (supply : NameSupply) (name : Name) : Bool :=
  supply.used.contains name

def reserve (supply : NameSupply) (name : Name) : NameSupply :=
  ⟨name :: supply.used⟩

/-- The first free name from an index on, among `tries` candidates and the one
behind them. -/
def firstFree (supply : NameSupply) (stem : Name) : (tries index : Nat) → Name
  | 0, index => stem.indexed index
  | tries + 1, index =>
      if supply.isReserved (stem.indexed index) then
        supply.firstFree stem tries (index + 1)
      else stem.indexed index

/-- The candidate of a name's stem with the least free index.  Of one candidate
more than there are reserved names, at least one is free. -/
def freshName (supply : NameSupply) (base : Name) : Name :=
  supply.firstFree base.stem supply.used.length 1

/-- A fresh name, which is reserved from now on. -/
def fresh (base : Name) : Naming Name := do
  let name := (← get).freshName base
  modify (·.reserve name)
  return name

/-- The name itself if it is free, otherwise a fresh one. -/
def acquire (base : Name) : Naming Name := do
  if (← get).isReserved base then fresh base
  else
    modify (·.reserve base)
    return base

end NameSupply

end RecursiveQuery
