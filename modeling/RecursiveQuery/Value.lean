import RecursiveQuery.Collection
import RecursiveQuery.Expr.Printer
import RecursiveQuery.NameMap

/-!
# Values

The results of evaluation.  Bags are equal when they hold equal elements the
same number of times, and functions are equal when they were made by the same
step of the same evaluation.
-/

namespace RecursiveQuery

/-- The step of an evaluation that made a function: the choices that lead to
it, the innermost first. -/
abbrev Site := List Nat

mutual

inductive Value where
  | unit
  | bool (value : Bool)
  | int (value : Int64)
  | str (value : String)
  | tuple (items : List Value)
  | collection (kind : CollectionKind) (rows : List Value)
  | closure (closure : Closure)
  | builtin (function : Builtin)
  | iterateOn (kind : CollectionKind) (base : Value)

/-- A function with the environment of its definition. -/
structure Closure where
  site : Site
  param : Pattern
  body : Expr
  env : List (Name × Value)

end

/-- The variables in scope with their values, the innermost first. -/
abbrev Env := NameMap Value

/-- What a value is, as error messages name it. -/
inductive ValueKind where
  | unit
  | bool
  | int
  | string
  | tuple
  | collection (kind : CollectionKind)
  | function
deriving DecidableEq

def ValueKind.name : ValueKind → String
  | unit => "unit"
  | bool => "bool"
  | int => "int"
  | string => "string"
  | tuple => "tuple"
  | collection kind => kind.name
  | function => "function"

/-- Remove the first element that passes a test. -/
def removeFirst? {α : Type} (test : α → Bool) : List α → Option (List α)
  | [] => none
  | head :: tail =>
      if test head then some tail else (removeFirst? test tail).map (head :: ·)

namespace Value

def ofLiteral : Literal → Value
  | .unit => unit
  | .bool value => bool value
  | .int value => int value
  | .str value => str value

def kind : Value → ValueKind
  | unit => .unit
  | bool _ => .bool
  | int _ => .int
  | str _ => .string
  | tuple _ => .tuple
  | collection kind _ => .collection kind
  | closure _ => .function
  | builtin _ => .function
  | iterateOn _ _ => .function

mutual

/-- Equality of values. -/
def same : Value → Value → Bool
  | unit, unit => true
  | bool left, bool right => left == right
  | int left, int right => left == right
  | str left, str right => left == right
  | tuple left, tuple right => sameList left right
  | collection .list left, collection .list right => sameList left right
  | collection .bag left, collection .bag right => sameBag left right
  | closure left, closure right => left.site == right.site
  | builtin left, builtin right => left == right
  | iterateOn leftKind left, iterateOn rightKind right =>
      leftKind == rightKind && same left right
  | _, _ => false
termination_by structural left => left

/-- Equal elements in the same order. -/
def sameList : List Value → List Value → Bool
  | [], [] => true
  | left :: lefts, right :: rights => same left right && sameList lefts rights
  | _, _ => false
termination_by structural left => left

/-- Each element on the left takes away the first equal one on the right, and
nothing is left over. -/
def sameBag : List Value → List Value → Bool
  | [], rights => rights.isEmpty
  | left :: lefts, rights =>
      match removeFirst? (fun right => same left right) rights with
      | some rest => sameBag lefts rest
      | none => false
termination_by structural left => left

end

mutual

/-- The literal expression of a value without bags and functions. -/
def toExpr? : Value → Option Expr
  | unit => some (.literal .unit)
  | bool value => some (.literal (.bool value))
  | int value => some (.literal (.int value))
  | str value => some (.literal (.str value))
  | tuple items => (toExprs? items).map .tuple
  | collection .list rows => (toExprs? rows).map .list
  | _ => none

def toExprs? : List Value → Option (List Expr)
  | [] => some []
  | item :: items =>
      match toExpr? item, toExprs? items with
      | some expr, some exprs => some (expr :: exprs)
      | _, _ => none

end

mutual

def chars : Value → List Char
  | unit => ['(', ')']
  | bool value => (Literal.bool value).chars
  | int value => (Literal.int value).chars
  | str value => (Literal.str value).chars
  | tuple items =>
      '(' :: (List.intercalate ", ".toList (charsList items) ++ [')'])
  | collection .list rows =>
      '[' :: (List.intercalate ", ".toList (charsList rows) ++ [']'])
  | collection .bag rows =>
      "bag [".toList ++ List.intercalate ", ".toList (charsList rows) ++ [']']
  | closure ⟨_, param, _, _⟩ => "fn ".toList ++ param.chars ++ " => ...".toList
  | builtin function => function.name.toList
  | iterateOn kind _ => (Builtin.iterate kind).name.toList

def charsList : List Value → List (List Char)
  | [] => []
  | item :: items => chars item :: charsList items

end

def print (value : Value) : String :=
  String.ofList value.chars

end Value

namespace Pattern

mutual

/-- Match a value, extending an environment by the variables of the pattern. -/
def bind : Pattern → Value → Env → Option Env
  | wildcard, _, env => some env
  | var name, value, env => some ((name, value) :: env)
  | literal expected, value, env =>
      if (Value.ofLiteral expected).same value then some env else none
  | tuple patterns, .tuple values, env => bindList patterns values env
  | tuple _, _, _ => none

def bindList : List Pattern → List Value → Env → Option Env
  | [], [], env => some env
  | pattern :: patterns, value :: values, env =>
      match bind pattern value env with
      | some inner => bindList patterns values inner
      | none => none
  | _, _, _ => none

end

end Pattern

end RecursiveQuery
