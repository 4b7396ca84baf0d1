import RecursiveQuery.Inversion.Recursion

/-!
# Fixpoint plans

A recursion becomes one fixpoint over its base relation.  The step function
takes the rows found so far and the last increment, and appends the rows of
all steps, each of which scans the increment in place of its recursive call.
-/

namespace RecursiveQuery

namespace Pattern

/-- Rename the variables that are in scope already: the new pattern, the new
names, and the equations with the old ones. -/
def renameClashes (pattern : Pattern) (inScope : List Name) :
    Naming (Pattern × List (Name × Name) × List Expr) := do
  let renames ← Naming.refresh (pattern.vars.filter inScope.contains)
  let equations := renames.map fun (name, target) =>
    Expr.equals (.var name) (.var target)
  return (pattern.rename (Name.renamed renames), renames, equations)

/-- Two different variables. -/
def pair? : Pattern → Option (Name × Name)
  | tuple [var first, var second] =>
      if first ≠ second then some (first, second) else none
  | _ => none

end Pattern

namespace StepCase

/-- Whether a pair of scans leads from one goal over a variable to the other
goal. -/
def isHop (start target : Name) (first second : Name × Name) : Bool :=
  first.1 = start && second.2 = target && first.2 = second.1 &&
    first.2 ≠ start && first.2 ≠ target

/-- Whether a step is nothing but an edge and a path behind each other, so that
scanning found rows in place of edges only adds rows that are derived
anyway. -/
def composesPaths (case : StepCase) (goals : List Name) : Bool :=
  let composes (edge path : Pattern) : Bool :=
    match goals, edge.pair?, path.pair? with
    | [start, target], some edge, some path =>
        isHop start target edge path || isHop start target path edge
    | _, _, _ => false
  match case.clauses with
  | [.scan generator [], .recursive _ argument] =>
      composes generator.pattern argument
  | [.recursive _ argument, .scan generator []] =>
      composes generator.pattern argument
  | _ => false

/-- The scans and conditions of the clauses of a step. -/
def scansOf (increment : Name) (source : Expr → Expr) :
    List StepClause → (inScope : List Name) → Naming (List Scan × List Expr)
  | [], _ => return ([], [])
  | .filter condition :: clauses, inScope => do
      let (scans, conditions) ← scansOf increment source clauses inScope
      return (scans, condition :: conditions)
  | .scan generator residual :: clauses, inScope => do
      let (pattern, renames, equations)
        ← generator.pattern.renameClashes inScope
      let residual ← Scope.renameClauses renames residual
      let (scans, conditions) ←
        scansOf increment source clauses (inScope ++ pattern.vars)
      return (⟨pattern, some (source generator.source)⟩ :: scans,
        equations ++ residual ++ conditions)
  | .recursive _ argument :: clauses, inScope => do
      let (pattern, _, equations) ← argument.renameClashes inScope
      let (scans, conditions) ←
        scansOf increment source clauses (inScope ++ pattern.vars)
      return (⟨pattern, some (.var increment)⟩ :: scans,
        equations ++ conditions)

/-- The rows of a step.  Where `accumulated` is the source of a scan, the rows
found so far are scanned instead. -/
def body (case : StepCase) (goal : Expr) (found increment : Name)
    (accumulated : Option Expr) : Naming Expr := do
  let source (expr : Expr) : Expr :=
    if accumulated = some expr then .var found else expr
  let (scans, conditions) ← scansOf increment source case.clauses []
  return .collect (.filtered scans conditions goal)

end StepCase

namespace Recursion

/-- Whether the base rows have to be filtered or put into the order of the
goals. -/
def isProjected (recursion : Recursion) : Bool :=
  recursion.base.generator.pattern ≠ .row recursion.goals ||
    !recursion.base.residual.isEmpty

/-- The base relation as rows of goals. -/
def baseRelation (recursion : Recursion) : Expr :=
  if recursion.isProjected then
    .collect (.filtered [recursion.base.generator.scan] recursion.base.residual
      (.row recursion.goals))
  else recursion.base.generator.source

/-- The source that steps replace by the rows found so far. -/
def accumulatedSource? (recursion : Recursion) (settings : Settings) :
    Option Expr :=
  match settings.joinSource with
  | .accumulated =>
      if recursion.isProjected then none
      else some recursion.base.generator.source
  | .stepRelation => none

/-- The source that one step replaces.  Only steps that compose paths do. -/
abbrev replacedSource? (recursion : Recursion) (settings : Settings)
    (case : StepCase) : Option Expr :=
  if case.composesPaths recursion.goals then
    recursion.accumulatedSource? settings
  else none

/-- The rows of each step in turn. -/
def bodies (recursion : Recursion) (settings : Settings)
    (found increment : Name) : List StepCase → Naming (List Expr)
  | [] => return []
  | case :: cases => do
      let accumulated := recursion.replacedSource? settings case
      let body ← case.body (.row recursion.goals) found increment accumulated
      let rest ← recursion.bodies settings found increment cases
      return body :: rest

/-- The right-nested concatenation of some expressions. -/
def concatenated : List Expr → Expr
  | [] => .list []
  | [last] => last
  | first :: rest => .binary .append first (concatenated rest)

/-- The fixpoint of a recursion. -/
def plan (recursion : Recursion) (settings : Settings) : Naming Generator := do
  let found ← NameSupply.acquire "old"
  let increment ← NameSupply.acquire "new"
  let bodies ← recursion.bodies settings found increment recursion.steps
  let step :=
    Expr.lambda (.tuple [.var found, .var increment]) (concatenated bodies)
  let kind := recursion.base.generator.kind
  return {
    pattern := .row recursion.goals
    source := .apply
      (.apply (.var (Builtin.iterate kind).name) recursion.baseRelation) step
    kind := kind
    cardinality := .finite }

end Recursion

end RecursiveQuery
