import RecursiveQuery.Inversion.Clause

/-!
# Inversion of single clauses

A clause that constrains variables is turned into a generator of them:
membership scans the collection, an equality with a computable side yields one
value, conjunctions and `exists` filters join the generators of their clauses,
and the call of a helper predicate is unfolded.
-/

namespace RecursiveQuery

/-- Why a clause has no generator. -/
inductive Obstacle where
  | unboundSource (source : Expr) (name : Name)
  | notPattern (expr : Expr)
  | notComputable (term : Expr)
  | unsupported (term : Expr)
  | calledThroughVariable (function : Name)
  | recursesOutside (function : Name)
  | argumentMisfit (term : Expr) (param : Pattern)
  | notEnumerable (term : Expr)
  | argumentNotPattern (term : Expr)
  | disjunctiveBody (body : Expr)
  | nothingBinds (name : Name)
  | stated (reason : String)
deriving DecidableEq

def Obstacle.message : Obstacle → String
  | unboundSource source name =>
      "source `" ++ source.print ++ "` depends on unbound `" ++ name ++ "`"
  | notPattern expr => "`" ++ expr.print ++ "` is not a pattern"
  | notComputable term => "neither side of `" ++ term.print ++ "` is computable"
  | unsupported term => "cannot invert `" ++ term.print ++ "`"
  | calledThroughVariable function =>
      "`" ++ function ++ "` is called through a variable"
  | recursesOutside function =>
      "`" ++ function ++ "` recurses outside the recursive arm"
  | argumentMisfit term param =>
      "argument of `" ++ term.print ++ "` does not fit `" ++ param.print ++ "`"
  | notEnumerable term => "cannot enumerate `" ++ term.print ++ "`"
  | argumentNotPattern term =>
      "argument of `" ++ term.print ++ "` is not a pattern"
  | disjunctiveBody body => "disjunctive helper body `" ++ body.print ++ "`"
  | nothingBinds name => "nothing binds `" ++ name ++ "`"
  | stated reason => reason

/-- The outcome for one clause: a generator whose rows still have to satisfy
the residual conditions, a mere filter because all variables are bound, or a
failure. -/
inductive Inversion where
  | generated (generator : Generator) (residual : List Expr)
  | filter
  | failed (obstacle : Obstacle)
deriving DecidableEq

/-- How clauses are inverted, given the functions that are being unfolded. -/
abbrev Inverter := (active : List Name) → Scope → Expr → Naming Inversion

/-- How the body of a function is inverted so that it produces some outputs. -/
abbrev Unfolder :=
  (function : Name) → Scope → (body : Expr) → (outputs : List Name) →
    Naming Inversion

namespace Pattern

mutual

/-- Give a fresh name to every variable that is bound or occurred before.  The
result has the variables seen so far and, in order, the equations that the new
names have to satisfy. -/
def freshenFrom (scope : Scope) :
    Pattern → (seen : List Name) → Naming (Pattern × List Name × List Expr)
  | wildcard, seen => return (wildcard, seen, [])
  | literal value, seen => return (literal value, seen, [])
  | var name, seen => do
      if scope.isBound name || seen.contains name then
        let target ← NameSupply.fresh name
        return (var target, seen, [.equals (.var target) (.var name)])
      else return (var name, name :: seen, [])
  | tuple items, seen => do
      let (items, seen, equations) ← freshenFromList scope items seen
      return (tuple items, seen, equations)

def freshenFromList (scope : Scope) :
    List Pattern → (seen : List Name) →
      Naming (List Pattern × List Name × List Expr)
  | [], seen => return ([], seen, [])
  | item :: items, seen => do
      let (item, seen, first) ← freshenFrom scope item seen
      let (items, seen, rest) ← freshenFromList scope items seen
      return (item :: items, seen, first ++ rest)

end

/-- A pattern that binds only new variables, each once, with the equations
that stand for the constraints it lost. -/
def freshen (pattern : Pattern) (scope : Scope) :
    Naming (Pattern × List Expr) := do
  let (pattern, _, equations) ← pattern.freshenFrom scope []
  return (pattern, equations)

mutual

/-- The component of an argument that each parameter variable stands for. -/
def components? : Pattern → Expr → Option Replacements
  | wildcard, _ => some []
  | var name, argument => some [(name, argument)]
  | tuple params, .tuple arguments => componentsList? params arguments
  | _, _ => none

def componentsList? : List Pattern → List Expr → Option Replacements
  | [], [] => some []
  | param :: params, argument :: arguments =>
      match components? param argument, componentsList? params arguments with
      | some first, some rest => some (first ++ rest)
      | _, _ => none
  | _, _ => none

end

/-- The replacements by which a call is unfolded; a repeated parameter
variable has none. -/
def bindArgument? (param : Pattern) (argument : Expr) : Option Replacements :=
  match param.components? argument with
  | some components =>
      if (NameMap.keys components).Nodup then some components else none
  | none => none

end Pattern

namespace Scope

/-- The unbound ones among some variables, in the order in which a term
mentions them. -/
def unboundInOrder (scope : Scope) (term : Expr) (locals : List Name) :
    List Name :=
  term.appearanceOrder (locals.filter fun name => !scope.isBound name)

end Scope

namespace Inversion

/-- `left elem right` scans the collection on the right. -/
def ofMember (program : Program) (scope : Scope) (left right : Expr) :
    Naming Inversion := do
  match (scope.locals program right).find? fun name => !scope.isBound name with
  | some name => return .failed (.unboundSource right name)
  | none =>
      match left.toPattern? with
      | none => return .failed (.notPattern left)
      | some pattern =>
          let (pattern, residual) ← pattern.freshen scope
          let shape := right.sourceShape program
          return .generated ⟨pattern, right, shape.kind, shape.cardinality⟩
            residual

/-- The pattern on one side of an equality, if the other side is computable
and there is something to bind. -/
def equalityPattern? (program : Program) (scope : Scope) (side value : Expr) :
    Option Pattern := do
  guard ((scope.locals program value).all scope.isBound)
  let pattern ← side.toPattern?
  guard (!pattern.vars.all scope.isBound)
  return pattern

def ofPattern (scope : Scope) (pattern : Pattern) (value : Expr) :
    Naming Inversion := do
  let (pattern, residual) ← pattern.freshen scope
  return .generated (.singleton pattern value) residual

/-- An equality yields the value of one of its sides, preferably the right
one. -/
def ofEquality (program : Program) (scope : Scope) (term left right : Expr) :
    Naming Inversion :=
  match equalityPattern? program scope left right with
  | some pattern => ofPattern scope pattern right
  | none =>
      match equalityPattern? program scope right left with
      | some pattern => ofPattern scope pattern left
      | none => return .failed (.notComputable term)

/-- A predicate without visible definition filters the extent of its
argument. -/
def ofOpaqueCall (scope : Scope) (term : Expr) (function : Name)
    (argument : Expr) : Naming Inversion :=
  match argument.toPattern? with
  | none => return .failed (.argumentNotPattern term)
  | some pattern => do
      let (pattern, residual) ← pattern.freshen scope
      match pattern.toExpr? with
      | some row =>
          return .generated (.extent pattern (.apply (.var function) row))
            residual
      | none => return .failed (.notEnumerable term)

/-- What the clauses of a conjunction have produced so far. -/
structure Joined where
  scope : Scope
  parts : List Generator
  residual : List Expr

/-- Invert clauses from left to right, each in the scope that the ones before
it leave. -/
def joinClauses (invert : Scope → Expr → Naming Inversion) :
    List Expr → Joined → Naming (Except Obstacle Joined)
  | [], joined => return .ok joined
  | clause :: clauses, joined => do
      match ← invert joined.scope clause with
      | .generated generator residual =>
          joinClauses invert clauses
            { scope := joined.scope.produce generator
              parts := joined.parts ++ [generator]
              residual := joined.residual ++ residual }
      | .filter =>
          joinClauses invert clauses
            { joined with residual := joined.residual ++ [clause] }
      | .failed obstacle => return .error obstacle

/-- The generator of some outputs that joined clauses amount to.  A single
generator of exactly the outputs stays as it is. -/
def ofJoined (outputs : List Name) (joined : Joined) : Inversion :=
  match outputs.find? fun name => !joined.scope.isBound name with
  | some name => .failed (.nothingBinds name)
  | none =>
      match joined.parts with
      | [] => .filter
      | parts =>
          match parts with
          | [only] =>
              if only.pattern.vars = outputs then
                .generated only joined.residual
              else .generated (.join parts joined.residual outputs) []
          | _ => .generated (.join parts joined.residual outputs) []

/-- Whether an expression is a conjunction or an `exists`. -/
def isCompound : Expr → Bool
  | .andAlso _ _ => true
  | .existence _ => true
  | _ => false

/-- Invert a condition so that it produces some outputs, given how its clauses
are inverted. -/
def ofBody (program : Program) (invert : Scope → Expr → Naming Inversion)
    (scope : Scope) (body : Expr) (outputs : List Name) : Naming Inversion := do
  if body.disjuncts.length > 1 then return .failed (.disjunctiveBody body)
  else
    match ← scope.flatten program body with
    | [single] =>
        if single = body && isCompound body then
          return .failed (.unsupported body)
        else invert scope single
    | clauses =>
        match ← joinClauses invert clauses ⟨scope, [], []⟩ with
        | .ok joined => return ofJoined outputs joined
        | .error obstacle => return .failed obstacle

/-- Invert the call of a named function, given how a body is unfolded. -/
def ofCall (program : Program) (unfold : Unfolder) (active : List Name)
    (scope : Scope) (term : Expr) (function : Name) (argument : Expr)
    (outputs : List Name) : Naming Inversion := do
  if scope.isBound function || scope.isGoal function then
    return .failed (.calledThroughVariable function)
  else
    match program.decl? function with
    | some (.function _ param body) =>
        if active.contains function then
          return .failed (.recursesOutside function)
        else
          match param.bindArgument? argument with
          | none => return .failed (.argumentMisfit term param)
          | some replacements =>
              unfold function scope (← body.substitute replacements) outputs
    | _ => ofOpaqueCall scope term function argument

/-- Invert a clause whose conjunctions and filters are at most `nesting`
deep. -/
def ofTerm (program : Program) (unfold : Unfolder) (active : List Name) :
    (nesting : Nat) → Scope → Expr → Naming Inversion
  | 0, _, term => return .failed (.unsupported term)
  | nesting + 1, scope, term =>
      let locals := scope.locals program term
      if locals.all scope.isBound then return .filter
      else
        let outputs := scope.unboundInOrder term locals
        match term with
        | .binary .member left right => ofMember program scope left right
        | .binary .eq left right => ofEquality program scope term left right
        | .andAlso _ _ | .existence _ =>
            ofBody program (ofTerm program unfold active nesting) scope
              term outputs
        | .apply (.var function) argument =>
            ofCall program unfold active scope term function argument outputs
        | _ => return .failed (.unsupported term)

/-- Invert a clause, unfolding at most `unfoldings` functions inside each
other. -/
def within (program : Program) : (unfoldings : Nat) → Inverter
  | 0, active, scope, term =>
      ofTerm program (fun _ _ body _ => return .failed (.unsupported body))
        active term.size scope term
  | unfoldings + 1, active, scope, term =>
      ofTerm program
        (fun function scope body outputs =>
          ofBody program (within program unfoldings (function :: active))
            scope body outputs)
        active term.size scope term

/-- Invert a clause.  Only functions that are not active are unfolded, so the
declarations bound how many of them stand inside each other. -/
def base (program : Program) : Inverter :=
  within program program.decls.length

/-- The inverter that refuses every clause. -/
def refusing : Inverter := fun _ _ term =>
  return .failed (.stated ("refused `" ++ term.print ++ "`"))

end Inversion

end RecursiveQuery
