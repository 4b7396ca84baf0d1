import RecursiveQuery.Inversion.Refusal
import RecursiveQuery.Inversion.Settings
import RecursiveQuery.Inversion.Tree

/-!
# Linear recursions

The transitive-closure shape of an analysis tree: a finite base relation over
the goals, and one or more steps that each join a single recursive call to at
least one finite relation.
-/

namespace RecursiveQuery

/-- The rows the recursion starts from. -/
structure BaseCase where
  generator : Generator
  residual : List Expr
deriving DecidableEq

inductive StepClause where
  | scan (generator : Generator) (residual : List Expr)
  | filter (condition : Expr)
  | recursive (function : Name) (argument : Pattern)
deriving DecidableEq

/-- The clauses of a recursive arm in order. -/
structure StepCase where
  clauses : List StepClause
  joins : List Name
deriving DecidableEq

structure Recursion where
  goals : List Name
  base : BaseCase
  steps : List StepCase
deriving DecidableEq

namespace BaseCase

/-- The generators and conditions of a conjunction of plain clauses. -/
def gather : List AnalysisTree → Except Refusal (List Generator × List Expr)
  | [] => return ([], [])
  | .terminal ⟨term, .inverted inversion⟩ :: children =>
      match inversion with
      | .generated generator residual => do
          let (parts, rest) ← gather children
          return (generator :: parts, residual ++ rest)
      | .filter => do
          let (parts, rest) ← gather children
          return (parts, term :: rest)
      | .failed obstacle => throw (.noMatch (.obstacle obstacle))
  | _ :: _ => throw (.noMatch .nestedBase)

/-- The relation of an arm without recursive call, before it is known to be
finite. -/
def candidate (goals : List Name) : AnalysisTree → Except Refusal BaseCase
  | .terminal ⟨_, .inverted (.generated generator residual)⟩ =>
      return ⟨generator, residual⟩
  | .terminal ⟨_, .inverted .filter⟩ => throw (.noMatch .baseBindsNothing)
  | .terminal ⟨_, .inverted (.failed obstacle)⟩ =>
      throw (.noMatch (.obstacle obstacle))
  | .terminal ⟨_, .recursive _ _⟩ => throw (.noMatch .recursiveBase)
  | .branch _ _ => throw (.noMatch .disjunctiveBase)
  | .sequence children _ => do
      let (parts, residual) ← gather children
      if parts.isEmpty then throw (.noMatch .baseBindsNothing)
      let covered := parts.flatMap fun part => part.pattern.vars
      match goals.find? fun goal => !covered.contains goal with
      | some goal => throw (.unboundedBase (.misses goal))
      | none => return ⟨.join parts residual goals, []⟩

/-- The finite relation over the goals that an arm describes. -/
def ofTree (goals : List Name) (tree : AnalysisTree) :
    Except Refusal BaseCase := do
  let base ← candidate goals tree
  if !base.generator.isFinite then
    throw (.unboundedBase (.unknownSource base.generator.source))
  match goals.find? fun goal => !base.generator.pattern.vars.contains goal with
  | some goal => throw (.unboundedBase (.misses goal))
  | none => return base

end BaseCase

namespace StepClause

/-- The variables a clause produces. -/
def produced : StepClause → List Name
  | scan generator _ => generator.pattern.vars
  | filter _ => []
  | recursive _ argument => argument.vars

/-- The clause of a child of a recursive arm. -/
def ofTree : AnalysisTree → Except Refusal StepClause
  | .terminal ⟨term, .recursive function argument⟩ =>
      match argument.toPattern? with
      | some pattern => return recursive function pattern
      | none => throw (.noMatch (.computedArgument term))
  | .terminal ⟨term, .inverted (.generated generator residual)⟩ =>
      if generator.isFinite then return scan generator residual
      else throw (.noMatch (.infiniteStep term))
  | .terminal ⟨term, .inverted .filter⟩ => return filter term
  | .terminal ⟨_, .inverted (.failed obstacle)⟩ =>
      throw (.noMatch (.obstacle obstacle))
  | _ => throw (.noMatch .nestedStep)

def isScan : StepClause → Bool
  | scan _ _ => true
  | _ => false

/-- The variables of a recursive call. -/
def recursiveVars : StepClause → List Name
  | recursive _ argument => argument.vars
  | _ => []

end StepClause

namespace StepCase

/-- The step that a recursive arm describes. -/
def ofTree (goals : List Name) : AnalysisTree → Except Refusal StepCase
  | .terminal _ => throw (.noMatch .bareCall)
  | .branch _ _ => throw (.noMatch .disjunctiveStep)
  | .sequence children joins => do
      let clauses ← children.mapM StepClause.ofTree
      if !clauses.any StepClause.isScan then throw (.noMatch .noStepRelation)
      if !(clauses.flatMap StepClause.recursiveVars).any joins.contains then
        throw .noJoinVariable
      let produced := clauses.flatMap StepClause.produced
      match goals.find? fun goal => !produced.contains goal with
      | some goal => throw (.noMatch (.stepMisses goal))
      | none => return ⟨clauses, joins⟩

end StepCase

namespace Recursion

/-- The base arm and the recursive arms.  Of two arms either can be the base;
of more, the policy may allow the first one to be. -/
def splitArms (settings : Settings) :
    List AnalysisTree → Except Refusal (AnalysisTree × List AnalysisTree)
  | [first, second] =>
      if !first.isRecursive then return (first, [second])
      else if !second.isRecursive then return (second, [first])
      else throw (.noMatch .everyArmRecursive)
  | arms =>
      match settings.disjunctionPolicy, arms with
      | .firstArmBase, first :: rest => do
          if first.isRecursive then throw (.noMatch .firstArmRecursive)
          match rest.findIdx? fun arm => !arm.isRecursive with
          | some index => throw (.noMatch (.plainArm (index + 2)))
          | none => return (first, rest)
      | _, _ => throw (.noMatch (.tooManyArms arms.length))

/-- The recursion that a tree describes. -/
def ofTree (settings : Settings) (goals : List Name) (tree : AnalysisTree) :
    Except Refusal Recursion := do
  let arms := tree.arms
  if arms.length < 2 then throw (.noMatch .notDisjunction)
  let worst := (arms.map AnalysisTree.recursiveCalls).foldl max 0
  if worst > 1 then throw (.nonLinear worst)
  if worst = 0 then throw (.noMatch .notRecursive)
  let (baseArm, stepArms) ← splitArms settings arms
  if stepArms.length > settings.maxStepCases then
    throw (.noMatch (.tooManySteps stepArms.length settings.maxStepCases))
  let base ← BaseCase.ofTree goals baseArm
  let steps ← stepArms.mapM (StepCase.ofTree goals)
  return ⟨goals, base, steps⟩

end Recursion

end RecursiveQuery
