import RecursiveQuery.Expr.Basic

/-!
# Shapes of expressions

Building conjunctions and tuples, taking connectives apart, and moving between
expressions and the patterns that match exactly the values they build.
-/

namespace RecursiveQuery

namespace Expr

def int (value : Int64) : Expr :=
  literal (.int value)

def bool (value : Bool) : Expr :=
  literal (.bool value)

def equals (left right : Expr) : Expr :=
  binary .eq left right

/-- The left-nested conjunction of some terms, `true` if there are none. -/
def conjunction : List Expr → Expr
  | [] => bool true
  | first :: rest => rest.foldl andAlso first

/-- The left-nested disjunction of a first term and further ones. -/
def disjunction (first : Expr) (rest : List Expr) : Expr :=
  rest.foldl orElse first

/-- A tuple of some components: none of them is the unit literal and a single
one stands for itself. -/
def bracketed : List Expr → Expr
  | [] => literal .unit
  | [item] => item
  | items => tuple items

/-- The function name and the argument of a call of a named function. -/
def namedCall? : Expr → Option (Name × Expr)
  | apply (var name) argument => some (name, argument)
  | _ => none

/-- The terms of nested conjunctions, from left to right. -/
def conjuncts : Expr → List Expr
  | andAlso left right => conjuncts left ++ conjuncts right
  | term => [term]

/-- The terms of nested disjunctions, from left to right. -/
def disjuncts : Expr → List Expr
  | orElse left right => disjuncts left ++ disjuncts right
  | term => [term]

mutual

/-- The pattern that matches the values an expression builds from variables,
literals and tuples. -/
def toPattern? : Expr → Option Pattern
  | var name => some (.var name)
  | literal value => some (.literal value)
  | tuple items => (toPatterns? items).map .tuple
  | _ => none

def toPatterns? : List Expr → Option (List Pattern)
  | [] => some []
  | item :: items =>
      match toPattern? item, toPatterns? items with
      | some pattern, some patterns => some (pattern :: patterns)
      | _, _ => none

end

end Expr

namespace Pattern

mutual

/-- The expression that rebuilds the matched value; a wildcard forgets it. -/
def toExpr? : Pattern → Option Expr
  | wildcard => none
  | var name => some (.var name)
  | literal value => some (.literal value)
  | tuple items => (toExprs? items).map .tuple

def toExprs? : List Pattern → Option (List Expr)
  | [] => some []
  | item :: items =>
      match toExpr? item, toExprs? items with
      | some expr, some exprs => some (expr :: exprs)
      | _, _ => none

end

end Pattern

namespace Query

def hasYield (query : Query) : Bool :=
  query.steps.any fun
    | .yield _ => true
    | .filter _ => false

def hasFilter (query : Query) : Bool :=
  query.steps.any fun
    | .filter _ => true
    | .yield _ => false

/-- The variables the scans bind, in the order of their first occurrence. -/
def scanVars (query : Query) : List Name :=
  (query.scans.flatMap fun scan => scan.pattern.occurrences).eraseDups

end Query

namespace Expr

mutual

/-- Number of nodes of an expression, those of its patterns included. -/
def size : Expr → Nat
  | literal _ => 1
  | var _ => 1
  | tuple items => 1 + sizeList items
  | list items => 1 + sizeList items
  | apply function argument => 1 + size function + size argument
  | lambda param body => 1 + param.size + size body
  | andAlso left right => 1 + size left + size right
  | orElse left right => 1 + size left + size right
  | binary _ left right => 1 + size left + size right
  | collect query => 1 + sizeQuery query
  | existence query => 1 + sizeQuery query

def sizeList : List Expr → Nat
  | [] => 0
  | item :: items => size item + sizeList items

def sizeQuery : Query → Nat
  | ⟨scans, steps⟩ => sizeScans scans + sizeSteps steps

def sizeScans : List Scan → Nat
  | [] => 0
  | ⟨pattern, none⟩ :: scans => 1 + pattern.size + sizeScans scans
  | ⟨pattern, some source⟩ :: scans =>
      1 + pattern.size + size source + sizeScans scans

def sizeSteps : List Step → Nat
  | [] => 0
  | .filter condition :: steps => 1 + size condition + sizeSteps steps
  | .yield value :: steps => 1 + size value + sizeSteps steps

end

end Expr

end RecursiveQuery
