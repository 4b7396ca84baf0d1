/-!
# Settings of predicate inversion
-/

namespace RecursiveQuery

/-- How disjunctions with more than two arms are matched: the first arm is the
base and all others are steps, or they are not matched at all. -/
inductive DisjunctionPolicy where
  | firstArmBase
  | binaryOnly
deriving DecidableEq

/-- What a step scans in place of the base relation: that relation, or all rows
found so far. -/
inductive JoinSource where
  | stepRelation
  | accumulated
deriving DecidableEq

structure Settings where
  enabled : Bool := true
  disjunctionPolicy : DisjunctionPolicy := .firstArmBase
  joinSource : JoinSource := .stepRelation
  maxStepCases : Nat := 4
deriving DecidableEq

def DisjunctionPolicy.name : DisjunctionPolicy → String
  | firstArmBase => "first_arm_base"
  | binaryOnly => "binary_only"

def JoinSource.name : JoinSource → String
  | stepRelation => "step_relation"
  | accumulated => "accumulated"

end RecursiveQuery
