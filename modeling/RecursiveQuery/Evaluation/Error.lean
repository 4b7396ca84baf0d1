import RecursiveQuery.Value

/-!
# Failures of evaluation

An evaluation halts with an error, or because a fixpoint was not reached within
the rounds it was given; the latter says nothing about the program.
-/

namespace RecursiveQuery

/-- What an operation asks of an operand. -/
inductive Expectation where
  | bool
  | int
  | string
  | intOrString
  | collection
  | function
deriving DecidableEq

def Expectation.name : Expectation → String
  | bool => "bool"
  | int => "int"
  | string => "string"
  | intOrString => "int or string"
  | collection => "collection"
  | function => "function"

inductive EvalError where
  | unbound (name : Name)
  | typeMismatch (expected : Expectation) (found : ValueKind)
  | matchFailure (pattern : Pattern) (value : Value)
  | unboundedScan (pattern : Pattern)
  | depthExceeded (limit : Nat)
  | overloadMismatch (builtin : Builtin) (found : ValueKind)
  | overflow

def EvalError.message : EvalError → String
  | unbound name => s!"unbound variable `{name}`"
  | typeMismatch expected found =>
      "expected " ++ expected.name ++ ", found " ++ found.name
  | matchFailure pattern value =>
      "pattern `" ++ pattern.print ++ "` does not match " ++ value.print
  | unboundedScan pattern =>
      "scan `" ++ pattern.print ++ "` has no source and no extent is configured"
  | depthExceeded limit => s!"call depth exceeded the limit of {limit}"
  | overloadMismatch builtin found =>
      "`" ++ builtin.name ++ "` applied to a " ++ found.name
  | overflow => "integer overflow"

/-- Why an evaluation has no result. -/
inductive Halt where
  | error (cause : EvalError)
  | outOfRounds

abbrev Outcome := Except Halt

namespace Outcome

variable {α : Type}

def fail (cause : EvalError) : Outcome α :=
  .error (.error cause)

/-- An operand of the wrong kind. -/
def mismatch (expected : Expectation) (found : Value) : Outcome α :=
  fail (.typeMismatch expected found.kind)

end Outcome

end RecursiveQuery
