import RecursiveQuery.Evaluation.Error

/-!
# Fixpoints of row functions

Semi-naive iteration: a step sees all rows found so far and the rows that the
round before added, and rounds go on until one adds nothing.
-/

namespace RecursiveQuery

/-- The rows that equal neither a known row nor an earlier one. -/
def newRows (known : List Value) : List Value → List Value
  | [] => []
  | row :: rows =>
      if known.any fun other => other.same row then newRows known rows
      else row :: newRows (row :: known) rows

/-- Iterate a step from the rows found so far and the last increment.  A step
is told the number of its round; `rounds` bounds how many are left. -/
def saturate
    (step : (round : Nat) → (found increment : List Value) →
      Outcome (List Value)) : (rounds round : Nat) →
      (found increment : List Value) → Outcome (List Value)
  | _, _, found, [] => return found
  | 0, _, _, _ :: _ => .error .outOfRounds
  | rounds + 1, round, found, increment => do
      let next := newRows found (← step round found increment)
      saturate step rounds (round + 1) (found ++ next) next

/-- The fixpoint above some base rows. -/
def fixpoint
    (step : (round : Nat) → (found increment : List Value) → Outcome
      (List Value)) (rounds : Nat) (base : List Value) : Outcome (List Value) :=
  let start := newRows [] base
  saturate step rounds 0 start start

end RecursiveQuery
