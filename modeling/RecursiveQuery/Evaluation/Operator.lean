import RecursiveQuery.Evaluation.Error

/-!
# Binary operators on values

Integers are of 64 bits, and a sum outside their range is an error.  Strings
are ordered by code point.
-/

namespace RecursiveQuery

namespace Value

/-- The integer of 64 bits with a given value. -/
def ofInt (value : Int) : Outcome Value :=
  if Int64.minValue.toInt ≤ value ∧ value ≤ Int64.maxValue.toInt then
    return int (Int64.ofInt value)
  else .fail .overflow

/-- The order of two integers or of two strings. -/
def order : Value → Value → Outcome Ordering
  | int left, int right => return compare left.toInt right.toInt
  | str left, str right => return compare left right
  | int _, right => .mismatch .int right
  | str _, right => .mismatch .string right
  | left, _ => .mismatch .intOrString left

/-- Membership in a list or a bag. -/
def memberOf (row : Value) : Value → Outcome Bool
  | collection _ rows => return rows.any fun candidate => candidate.same row
  | other => .mismatch .collection other

def append : Value → Value → Outcome Value
  | collection leftKind left, collection rightKind right =>
      return collection (leftKind.join rightKind) (left ++ right)
  | collection _ _, right => .mismatch .collection right
  | left, _ => .mismatch .collection left

/-- An arithmetic operation on two integers. -/
def arithmetic (operation : Int → Int → Int) : Value → Value → Outcome Value
  | int left, int right => ofInt (operation left.toInt right.toInt)
  | int _, right => .mismatch .int right
  | left, _ => .mismatch .int left

end Value

def BinaryOp.apply (op : BinaryOp) (left right : Value) : Outcome Value :=
  match op with
  | eq => return .bool (left.same right)
  | ne => return .bool (!left.same right)
  | lt => return .bool (← left.order right).isLT
  | le => return .bool (← left.order right).isLE
  | gt => return .bool (← left.order right).isGT
  | ge => return .bool (← left.order right).isGE
  | member => return .bool (← left.memberOf right)
  | append => left.append right
  | add => Value.arithmetic (· + ·) left right
  | sub => Value.arithmetic (· - ·) left right

end RecursiveQuery
