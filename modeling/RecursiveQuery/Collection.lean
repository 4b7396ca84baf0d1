import RecursiveQuery.Name
import RecursiveQuery.Ty

/-!
# Collections and builtin functions

A collection is a list or a bag, and mixing the two gives a bag.  Each kind has
its own fixpoint function.
-/

namespace RecursiveQuery

inductive CollectionKind where
  | list
  | bag
deriving DecidableEq

namespace CollectionKind

def name : CollectionKind → String
  | list => "list"
  | bag => "bag"

/-- A bag if either side is one. -/
def join : CollectionKind → CollectionKind → CollectionKind
  | list, list => list
  | _, _ => bag

/-- The kind of the values of a type. -/
def ofType (type : Ty) : CollectionKind :=
  if type.isBag then bag else list

end CollectionKind

/-- Functions that every program can use. -/
inductive Builtin where
  | not
  | iterate (kind : CollectionKind)
deriving DecidableEq

namespace Builtin

def all : List Builtin :=
  [not, iterate .list, iterate .bag]

def name : Builtin → Name
  | not => "not"
  | iterate .list => "List.iterate"
  | iterate .bag => "Bag.iterate"

def arity : Builtin → Nat
  | not => 1
  | iterate _ => 2

def ofName? (name : Name) : Option Builtin :=
  all.find? fun builtin => builtin.name == name

def names : List Name :=
  all.map Builtin.name

end Builtin

end RecursiveQuery
