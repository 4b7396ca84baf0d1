import RecursiveQuery.Evaluation.Fixpoint
import RecursiveQuery.Evaluation.Operator

/-!
# Evaluation

Evaluation is structural in the expression.  Calls of closures are a parameter
of it: `Session.call` supplies them by recursion on the call depth that is
left.  Every subevaluation has a site of its own, so that functions made by
different steps differ.
-/

namespace RecursiveQuery

/-- Bounds of an evaluation: the depth of calls, the values that a scan without
a source ranges over, and the rounds of a fixpoint. -/
structure Limits where
  maxDepth : Nat := 512
  extent : Option (List Value) := none
  rounds : Nat := 0x4000000000000000

/-- All integers from a lower to an upper bound. -/
def Limits.integers (lower upper : Int64) : List Value :=
  (List.range (upper.toInt + 1 - lower.toInt).toNat).map fun (offset : Nat) =>
    .int (Int64.ofInt (lower.toInt + offset))

/-- A loaded program with the limits of its evaluations. -/
structure Session where
  globals : NameMap Value
  declared : NameMap Ty
  limits : Limits

/-- How a closure is called: the site of the call comes before the argument. -/
abbrev Caller := Closure → Site → Value → Outcome Value

namespace Value

/-- The fixpoint of a step function above a base collection of the right
kind. -/
def iterate (rounds : Nat) (step : Site → Value → Outcome Value)
    (kind : CollectionKind) (base : Value) (site : Site) : Outcome Value :=
  match base with
  | collection baseKind rows =>
      if baseKind = kind then do
        let result ← fixpoint (fun round found increment => do
          match ← step (round :: site)
              (tuple [collection kind found, collection kind increment]) with
          | collection _ rows => return rows
          | other => .mismatch .collection other) rounds rows
        return collection kind result
      else .fail (.overloadMismatch (.iterate kind) (.collection baseKind))
  | other => .fail (.overloadMismatch (.iterate kind) other.kind)

/-- Apply a function, given how a fixpoint applies its step. -/
def applyUsing (call : Caller) (rounds : Nat)
    (applyStep : Value → Site → Value → Outcome Value)
    (function : Value) (site : Site) (argument : Value) : Outcome Value :=
  match function with
  | closure target => call target site argument
  | builtin .not =>
      match argument with
      | bool value => return bool !value
      | other => .mismatch .bool other
  | builtin (.iterate kind) => return iterateOn kind argument
  | iterateOn kind base => iterate rounds (applyStep argument) kind base site
  | other => .mismatch .function other

/-- Apply a value as the step of a fixpoint.  Its argument is a pair and so no
function, which leaves nothing to apply to a fixpoint inside the step. -/
def applyStep (call : Caller) (rounds : Nat) (step : Value) (site : Site)
    (rows : Value) : Outcome Value :=
  applyUsing call rounds (fun other _ _ => .mismatch .function other) step
    site rows

def apply (call : Caller) (rounds : Nat) (function : Value) (site : Site)
    (argument : Value) : Outcome Value :=
  applyUsing call rounds (applyStep call rounds) function site argument

def asBool : Value → Outcome Bool
  | bool value => return value
  | other => .mismatch .bool other

/-- A row without output of its own: the scanned value, or the tuple of the
scanned values if there is not exactly one. -/
def ofScanned : List Value → Value
  | [value] => value
  | values => tuple values

end Value

namespace Pattern

mutual

/-- The values that a scan without a source ranges over. -/
def extentRows (extent : Option (List Value)) : Pattern → Outcome (List Value)
  | literal value => return [.ofLiteral value]
  | tuple patterns => do
      return (← extentColumns extent patterns).map .tuple
  | wildcard =>
      match extent with
      | some values => return values
      | none => .fail (.unboundedScan wildcard)
  | var name =>
      match extent with
      | some values => return values
      | none => .fail (.unboundedScan (var name))

def extentColumns (extent : Option (List Value)) :
    List Pattern → Outcome (List (List Value))
  | [] => return [[]]
  | pattern :: patterns => do
      let column ← extentRows extent pattern
      let rest ← extentColumns extent patterns
      return column.flatMap fun value => rest.map (value :: ·)

end

/-- The rows that match a pattern, each with its number and the environment it
leads to. -/
def matching (pattern : Pattern) (env : Env) (rows : List Value) :
    List (Nat × Value × Env) :=
  rows.zipIdx.filterMap fun (row, index) =>
    (pattern.bind row env).map fun inner => (index, row, inner)

end Pattern

/-- The rows of a comprehension: a bag as soon as a scanned source was one. -/
structure Rows where
  kind : CollectionKind
  rows : List Value

/-- Join the rows found below each row of a source. -/
def Rows.below (kind : CollectionKind) (parts : List Rows) : Rows where
  kind := parts.foldl (fun kind part => kind.join part.kind) kind
  rows := parts.flatMap Rows.rows

namespace Session

/-- The value of a name: a variable in scope, a global, or a builtin. -/
def lookup (session : Session) (env : Env) (name : Name) : Outcome Value :=
  match env.lookup name with
  | some value => return value
  | none =>
      match session.globals.lookup name with
      | some value => return value
      | none =>
          match Builtin.ofName? name with
          | some builtin => return .builtin builtin
          | none => .fail (.unbound name)

end Session

namespace Expr

mutual

def eval (session : Session) (call : Caller) (env : Env) (site : Site) :
    Expr → Outcome Value
  | literal value => return .ofLiteral value
  | var name => session.lookup env name
  | tuple items => do
      return .tuple (← evalList session call env site items)
  | list items => do
      return .collection .list (← evalList session call env site items)
  | apply function argument => do
      let function ← eval session call env (0 :: site) function
      let argument ← eval session call env (1 :: site) argument
      function.apply call session.limits.rounds (2 :: site) argument
  | lambda param body => return .closure ⟨site, param, body, env⟩
  | andAlso left right => do
      if ← (← eval session call env (0 :: site) left).asBool then
        return .bool (← (← eval session call env (1 :: site) right).asBool)
      else return .bool false
  | orElse left right => do
      if ← (← eval session call env (0 :: site) left).asBool then
        return .bool true
      else return .bool (← (← eval session call env (1 :: site) right).asBool)
  | binary op left right => do
      let left ← eval session call env (0 :: site) left
      let right ← eval session call env (1 :: site) right
      op.apply left right
  | collect ⟨scans, steps⟩ => do
      let found ← collectScans session call
        (fun env site scanned =>
          evalSteps session call env site (.ofScanned scanned) steps)
        env site [] scans
      return .collection found.kind found.rows
  | existence ⟨scans, steps⟩ => do
      return .bool (← existsScans session call
        (fun env site scanned =>
          evalSteps session call env site (.ofScanned scanned) steps)
        env site [] scans)

def evalList (session : Session) (call : Caller) (env : Env) (site : Site) :
    List Expr → Outcome (List Value)
  | [] => return []
  | item :: items => do
      let value ← eval session call env (0 :: site) item
      let values ← evalList session call env (1 :: site) items
      return value :: values

/-- The steps of a comprehension: nothing if a filter fails, otherwise the last
output. -/
def evalSteps (session : Session) (call : Caller) (env : Env) (site : Site)
    (output : Value) : List Step → Outcome (Option Value)
  | [] => return some output
  | .filter condition :: steps => do
      if ← (← eval session call env (0 :: site) condition).asBool then
        evalSteps session call env (1 :: site) output steps
      else return none
  | .yield value :: steps => do
      let output ← eval session call env (0 :: site) value
      evalSteps session call env (1 :: site) output steps

/-- The rows that a scan ranges over. -/
def evalSource (session : Session) (call : Caller) (env : Env) (site : Site)
    (pattern : Pattern) : Option Expr → Outcome Rows
  | none => do
      return ⟨.list, ← pattern.extentRows session.limits.extent⟩
  | some source => do
      match ← eval session call env site source with
      | .collection kind rows => return ⟨kind, rows⟩
      | other => .mismatch .collection other

/-- All rows of a comprehension, where `finish` gives the output of the scanned
values. -/
def collectScans (session : Session) (call : Caller)
    (finish : Env → Site → List Value → Outcome (Option Value))
    (env : Env) (site : Site) (scanned : List Value) : List Scan → Outcome Rows
  | [] => do
      return ⟨.list, (← finish env site scanned).toList⟩
  | ⟨pattern, source⟩ :: scans => do
      let source ← evalSource session call env (0 :: site) pattern source
      let parts ← (pattern.matching env source.rows).mapM
        fun (index, row, inner) =>
          collectScans session call finish inner ((index + 1) :: site)
            (scanned ++ [row]) scans
      return .below source.kind parts

/-- Whether a comprehension has a row; the search ends at the first one. -/
def existsScans (session : Session) (call : Caller)
    (finish : Env → Site → List Value → Outcome (Option Value))
    (env : Env) (site : Site) (scanned : List Value) : List Scan → Outcome Bool
  | [] => do
      return (← finish env site scanned).isSome
  | ⟨pattern, source⟩ :: scans => do
      let source ← evalSource session call env (0 :: site) pattern source
      (pattern.matching env source.rows).anyM
        fun (index, row, inner) =>
          existsScans session call finish inner ((index + 1) :: site)
            (scanned ++ [row]) scans

end

end Expr

namespace Session

/-- Call a closure with so many nested calls left. -/
def call (session : Session) : (left : Nat) → Caller
  | 0, _, _, _ => .fail (.depthExceeded session.limits.maxDepth)
  | left + 1, closure, site, argument =>
      match closure.param.bind argument closure.env with
      | none => .fail (.matchFailure closure.param argument)
      | some env => closure.body.eval session (session.call left) env site

/-- Evaluate an expression in an environment. -/
def evalIn (session : Session) (site : Site) (env : Env) (expr : Expr) :
    Outcome Value :=
  expr.eval session (session.call session.limits.maxDepth) env site

def eval (session : Session) (site : Site) (expr : Expr) : Outcome Value :=
  session.evalIn site [] expr

def apply (session : Session) (site : Site) (function argument : Value) :
    Outcome Value :=
  function.apply (session.call session.limits.maxDepth) session.limits.rounds
    site argument

end Session

end RecursiveQuery
