import RecursiveQuery.Literal
import RecursiveQuery.Name

/-!
# Patterns

A pattern takes a value apart and binds variables.  A variable may occur more
than once; matching then keeps the last occurrence.
-/

namespace RecursiveQuery

inductive Pattern where
  | wildcard
  | var (name : Name)
  | literal (value : Literal)
  | tuple (items : List Pattern)

namespace Pattern

mutual

/-- Structural equality of patterns. -/
def same : Pattern → Pattern → Bool
  | wildcard, wildcard => true
  | var left, var right => left == right
  | literal left, literal right => left == right
  | tuple left, tuple right => sameList left right
  | _, _ => false

def sameList : List Pattern → List Pattern → Bool
  | [], [] => true
  | left :: lefts, right :: rights => same left right && sameList lefts rights
  | _, _ => false

end

mutual

theorem same_iff (left right : Pattern) :
    same left right = true ↔ left = right := by
  cases left <;> cases right <;> simp [same, sameList_iff]

theorem sameList_iff (left right : List Pattern) :
    sameList left right = true ↔ left = right := by
  cases left <;> cases right <;> simp [sameList, same_iff, sameList_iff]

end

instance : DecidableEq Pattern := fun left right =>
  decidable_of_iff (same left right = true) (same_iff left right)

mutual

/-- Every occurrence of a variable, from left to right. -/
def occurrences : Pattern → List Name
  | wildcard => []
  | var name => [name]
  | literal _ => []
  | tuple items => occurrencesList items

def occurrencesList : List Pattern → List Name
  | [] => []
  | item :: items => occurrences item ++ occurrencesList items

end

/-- The variables a pattern binds, in the order of their first occurrence. -/
def vars (pattern : Pattern) : List Name :=
  pattern.occurrences.eraseDups

mutual

def rename (change : Name → Name) : Pattern → Pattern
  | wildcard => wildcard
  | var name => var (change name)
  | literal value => literal value
  | tuple items => tuple (renameList change items)

def renameList (change : Name → Name) : List Pattern → List Pattern
  | [] => []
  | item :: items => rename change item :: renameList change items

end

mutual

/-- Number of nodes of a pattern. -/
def size : Pattern → Nat
  | wildcard => 1
  | var _ => 1
  | literal _ => 1
  | tuple items => 1 + sizeList items

def sizeList : List Pattern → Nat
  | [] => 0
  | item :: items => size item + sizeList items

end

/-- A row of variables: one of them stands alone, any other number is a
tuple. -/
def row : List Name → Pattern
  | [name] => var name
  | names => tuple (names.map var)

/-- The pattern written by a bracketed list: empty brackets are the unit
literal and a single component stands for itself. -/
def bracketed : List Pattern → Pattern
  | [] => literal .unit
  | [item] => item
  | items => tuple items

mutual

def chars : Pattern → List Char
  | wildcard => ['_']
  | var name => name.toList
  | literal value => value.chars
  | tuple items =>
      '(' :: (List.intercalate ", ".toList (charsList items) ++ [')'])

def charsList : List Pattern → List (List Char)
  | [] => []
  | item :: items => chars item :: charsList items

end

def print (pattern : Pattern) : String :=
  String.ofList pattern.chars

end Pattern

end RecursiveQuery
