import RecursiveQuery.Inversion.Base

/-!
# Refusals

Why a predicate or a query is not inverted.  A refusal is no fault of the
program: the query can still be evaluated by enumeration.
-/

namespace RecursiveQuery

/-- How a predicate, its call or the query around it misses the shape of a
transitive closure. -/
inductive ShapeFault where
  | disabled
  | notCall (call : Expr)
  | notFlat (param : Pattern)
  | argumentMisfit (argument : Expr) (param : Pattern)
  | notArgument (goal : Name)
  | notDisjunction
  | notRecursive
  | everyArmRecursive
  | tooManyArms (count : Nat)
  | firstArmRecursive
  | plainArm (number : Nat)
  | tooManySteps (count limit : Nat)
  | baseBindsNothing
  | obstacle (cause : Obstacle)
  | nestedBase
  | disjunctiveBase
  | recursiveBase
  | bareCall
  | disjunctiveStep
  | nestedStep
  | computedArgument (term : Expr)
  | infiniteStep (term : Expr)
  | noStepRelation
  | stepMisses (goal : Name)
  | severalScans
  | sourced (pattern : Pattern)
  | noLeadingFilter
  | noCall (condition : Expr)
  | notProjectable (pattern : Pattern)
  | notQuery (expr : Expr)

def ShapeFault.message : ShapeFault → String
  | disabled => "disabled"
  | notCall call => "`" ++ call.print ++ "` is not a predicate call"
  | notFlat param => "parameter `" ++ param.print ++ "` is not flat"
  | argumentMisfit argument param =>
      "argument `" ++ argument.print ++ "` does not fit parameter `" ++
        param.print ++ "`"
  | notArgument goal => s!"`{goal}` is not an argument of the call"
  | notDisjunction => "body is not a disjunction"
  | notRecursive => "no arm calls the predicate recursively"
  | everyArmRecursive => "every arm is recursive"
  | tooManyArms count => s!"disjunction has {count} arms"
  | firstArmRecursive => "first arm is not a base case"
  | plainArm number => s!"arm {number} has no recursive call"
  | tooManySteps count limit =>
      s!"{count} recursive arms exceed the limit of {limit}"
  | baseBindsNothing => "base case binds no goal variable"
  | obstacle cause => cause.message
  | nestedBase => "nested structure in base case"
  | disjunctiveBase => "nested disjunction in base case"
  | recursiveBase => "base case is recursive"
  | bareCall => "recursive arm is a bare call"
  | disjunctiveStep => "nested disjunction in recursive arm"
  | nestedStep => "nested structure in recursive arm"
  | computedArgument term =>
      "recursive call `" ++ term.print ++ "` has a computed argument"
  | infiniteStep term => "step clause `" ++ term.print ++ "` is not finite"
  | noStepRelation => "recursive arm has no step relation"
  | stepMisses goal => s!"recursive arm does not bind `{goal}`"
  | severalScans => "query has more than one scan"
  | sourced pattern => "`" ++ pattern.print ++ "` already has a source"
  | noLeadingFilter => "query does not start with `where`"
  | noCall condition => "no predicate call in `" ++ condition.print ++ "`"
  | notProjectable pattern => "cannot project onto `" ++ pattern.print ++ "`"
  | notQuery expr => "`" ++ expr.print ++ "` is not a `from` query"

/-- Why a base case is not known to be a finite relation over the goals. -/
inductive BaseFault where
  | misses (goal : Name)
  | unknownSource (source : Expr)

def BaseFault.message : BaseFault → String
  | misses goal => s!"base case does not bind `{goal}`"
  | unknownSource source =>
      "`" ++ source.print ++ "` is not known at compile time"

inductive Refusal where
  | noMatch (fault : ShapeFault)
  | unboundedBase (fault : BaseFault)
  | noJoinVariable
  | nonLinear (count : Nat)
  | notFunction (name : Name)

def Refusal.message : Refusal → String
  | noMatch fault =>
      "predicate does not match the transitive-closure shape: " ++ fault.message
  | unboundedBase fault => "base case is not provably finite: " ++ fault.message
  | noJoinVariable =>
      "recursive call shares no join variable with the step clauses"
  | nonLinear count =>
      s!"disjunct contains {count} recursive calls; " ++
        "only linear recursion is supported"
  | notFunction name => s!"`{name}` does not name a function"

end RecursiveQuery
