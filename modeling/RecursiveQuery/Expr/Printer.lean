import RecursiveQuery.Expr.Basic

/-!
# Written form of expressions

Every form has a binding level, and an operand is bracketed when its level is
below the one its place asks for.  Comprehensions and lambdas have the lowest
level, so that they never swallow a comma, a scan or a step that follows.
-/

namespace RecursiveQuery

namespace BinaryOp

def symbol : BinaryOp → String
  | eq => "="
  | ne => "<>"
  | lt => "<"
  | le => "<="
  | gt => ">"
  | ge => ">="
  | member => "elem"
  | append => "@"
  | add => "+"
  | sub => "-"

/-- Comparisons bind weaker than `@`, and `@` weaker than sums. -/
def level : BinaryOp → Nat
  | eq | ne | lt | le | gt | ge | member => 3
  | append => 4
  | add | sub => 5

/-- The level asked of the left operand: sums nest to the left. -/
def leftLevel : BinaryOp → Nat
  | eq | ne | lt | le | gt | ge | member => 4
  | append => 5
  | add | sub => 5

/-- The level asked of the right operand: `@` nests to the right. -/
def rightLevel : BinaryOp → Nat
  | eq | ne | lt | le | gt | ge | member => 4
  | append => 4
  | add | sub => 6

end BinaryOp

namespace Expr

/-- Binding level: 0 for open forms, then `orelse`, `andalso`, comparisons,
`@`, sums, applications, and 7 for closed forms. -/
def level : Expr → Nat
  | lambda _ _ | collect _ | existence _ => 0
  | orElse _ _ => 1
  | andAlso _ _ => 2
  | binary op _ _ => op.level
  | apply _ _ => 6
  | literal _ | var _ | tuple _ | list _ => 7

/-- Brackets around the text of an expression whose level is too low. -/
def bracketBelow (least : Nat) (expr : Expr) (text : List Char) : List Char :=
  if expr.level < least then '(' :: (text ++ [')']) else text

mutual

def chars : Expr → List Char
  | literal value => value.chars
  | var name => name.toList
  | tuple items =>
      '(' :: (List.intercalate ", ".toList (charsList items) ++ [')'])
  | list items =>
      '[' :: (List.intercalate ", ".toList (charsList items) ++ [']'])
  | apply function argument =>
      bracketBelow 6 function (chars function) ++
        ' ' :: bracketBelow 7 argument (chars argument)
  | lambda param body =>
      "fn ".toList ++ param.chars ++ " => ".toList ++ chars body
  | andAlso left right =>
      bracketBelow 2 left (chars left) ++ " andalso ".toList ++
        bracketBelow 3 right (chars right)
  | orElse left right =>
      bracketBelow 1 left (chars left) ++ " orelse ".toList ++
        bracketBelow 2 right (chars right)
  | binary op left right =>
      bracketBelow op.leftLevel left (chars left) ++
        ' ' :: (op.symbol.toList ++
          ' ' :: bracketBelow op.rightLevel right (chars right))
  | collect query => "from ".toList ++ charsQuery query
  | existence query => "exists ".toList ++ charsQuery query

/-- The texts of the items of a tuple or a list. -/
def charsList : List Expr → List (List Char)
  | [] => []
  | item :: items => bracketBelow 1 item (chars item) :: charsList items

def charsQuery : Query → List Char
  | ⟨scans, steps⟩ =>
      List.intercalate ", ".toList (charsScans scans) ++ charsSteps steps

def charsScans : List Scan → List (List Char)
  | [] => []
  | ⟨pattern, none⟩ :: scans => pattern.chars :: charsScans scans
  | ⟨pattern, some source⟩ :: scans =>
      (pattern.chars ++ " in ".toList ++
        bracketBelow 1 source (chars source)) :: charsScans scans

def charsSteps : List Step → List Char
  | [] => []
  | .filter condition :: steps =>
      " where ".toList ++ bracketBelow 1 condition (chars condition) ++
        charsSteps steps
  | .yield value :: steps =>
      " yield ".toList ++ bracketBelow 1 value (chars value) ++ charsSteps steps

end

def print (expr : Expr) : String :=
  String.ofList expr.chars

end Expr

end RecursiveQuery
