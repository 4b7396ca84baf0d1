/-!
# Types

Declared types of values.  A tuple type inside another type is bracketed, and
collection types are written behind their element type.
-/

namespace RecursiveQuery

inductive Ty where
  | unit
  | bool
  | int
  | string
  | tuple (items : List Ty)
  | list (element : Ty)
  | bag (element : Ty)

namespace Ty

mutual

/-- Structural equality of types. -/
def same : Ty → Ty → Bool
  | unit, unit => true
  | bool, bool => true
  | int, int => true
  | string, string => true
  | tuple left, tuple right => sameList left right
  | list left, list right => same left right
  | bag left, bag right => same left right
  | _, _ => false

def sameList : List Ty → List Ty → Bool
  | [], [] => true
  | left :: lefts, right :: rights => same left right && sameList lefts rights
  | _, _ => false

end

mutual

theorem same_iff (left right : Ty) : same left right = true ↔ left = right := by
  cases left <;> cases right <;> simp [same, same_iff, sameList_iff]

theorem sameList_iff (left right : List Ty) :
    sameList left right = true ↔ left = right := by
  cases left <;> cases right <;> simp [sameList, same_iff, sameList_iff]

end

instance : DecidableEq Ty := fun left right =>
  decidable_of_iff (same left right = true) (same_iff left right)

/-- The element type of a collection type. -/
def element? : Ty → Option Ty
  | list element => some element
  | bag element => some element
  | _ => none

def isBag : Ty → Bool
  | bag _ => true
  | _ => false

def isTuple : Ty → Bool
  | tuple _ => true
  | _ => false

/-- Brackets around the text of a tuple type. -/
def bracket (type : Ty) (text : List Char) : List Char :=
  if type.isTuple then '(' :: (text ++ [')']) else text

mutual

def chars : Ty → List Char
  | unit => "unit".toList
  | bool => "bool".toList
  | int => "int".toList
  | string => "string".toList
  | tuple items => List.intercalate " * ".toList (charsList items)
  | list element => bracket element (chars element) ++ " list".toList
  | bag element => bracket element (chars element) ++ " bag".toList

/-- The texts of the components of a tuple type. -/
def charsList : List Ty → List (List Char)
  | [] => []
  | item :: items => bracket item (chars item) :: charsList items

end

def print (type : Ty) : String :=
  String.ofList type.chars

end Ty

end RecursiveQuery
