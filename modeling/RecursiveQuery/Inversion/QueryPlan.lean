import RecursiveQuery.Inversion.Plan

/-!
# Plans of queries

A query that filters the extent of a pattern by a recursive predicate is turned
into a scan of the predicate's fixpoint.
-/

namespace RecursiveQuery

/-- How the argument of a call lines up with the parameter of the predicate:
the variables the body has to produce, what its parameter variables are
replaced by, the pattern that scans the result, and the conditions that are
left for the call site. -/
structure CallShape where
  goals : List Name
  replacements : Replacements
  pattern : Pattern
  residual : List Expr

namespace CallShape

/-- Name the rows of a tuple parameter when a variable stands for whole rows.
A parameter name that means something else at the call site is renamed. -/
def nameRows (param : Pattern) (clash : Name → Bool) :
    List Pattern → Naming (Except Refusal (List Name × Replacements))
  | [] => return .ok ([], [])
  | .var name :: formals => do
      let goal ← if clash name then NameSupply.fresh name else pure name
      match ← nameRows param clash formals with
      | .error refusal => return .error refusal
      | .ok (goals, later) =>
          let replacements :=
            if clash name && !later.contains name then
              (name, .var goal) :: later
            else later
          return .ok (goal :: goals, replacements)
  | _ :: _ => return .error (.noMatch (.notFlat param))

/-- Name the components of an argument.  A wanted variable stands for itself
the first time; any other component gets a fresh name and an equation. -/
def nameComponents (param : Pattern) (wanted : List Name) :
    List (Pattern × Expr) → (goals : List Name) →
      Naming (Except Refusal CallShape)
  | [], goals => return .ok ⟨goals, [], .row goals, []⟩
  | (.var formal, item) :: pairs, goals => do
      let kept : Option Name :=
        match item with
        | .var name =>
            if wanted.contains name && !goals.contains name then some name
            else none
        | _ => none
      let component ←
        match kept with
        | some name => pure name
        | none => NameSupply.fresh formal
      match ← nameComponents param wanted pairs (goals ++ [component]) with
      | .error refusal => return .error refusal
      | .ok shape =>
          return .ok { shape with
            replacements :=
              if NameMap.contains shape.replacements formal then
                shape.replacements
              else (formal, .var component) :: shape.replacements
            residual :=
              if kept.isSome then shape.residual
              else .equals (.var component) item :: shape.residual }
  | _ :: _, _ => return .error (.noMatch (.notFlat param))

/-- The components of a parameter with those of an argument. -/
def pairs? (param : Pattern) (argument : Expr) :
    Option (List (Pattern × Expr)) :=
  match param, argument with
  | .tuple formals, .tuple items =>
      if formals.length = items.length then some (formals.zip items) else none
  | .var _, _ => some [(param, argument)]
  | _, _ => none

/-- Line up an argument component by component; every wanted variable has to
be one of them. -/
def ofComponents (param : Pattern) (argument : Expr) (wanted : List Name) :
    Naming (Except Refusal CallShape) :=
  match pairs? param argument with
  | none => return .error (.noMatch (.argumentMisfit argument param))
  | some pairs => do
      match ← nameComponents param wanted pairs [] with
      | .error refusal => return .error refusal
      | .ok shape =>
          match (Name.ascending wanted).find? fun goal =>
            !shape.goals.contains goal with
          | some goal => return .error (.noMatch (.notArgument goal))
          | none => return .ok shape

/-- Line up the argument of a call with the parameter of the predicate. -/
def ofCall (param : Pattern) (argument : Expr) (goals : List Name)
    (bound : NameMap Generator) : Naming (Except Refusal CallShape) := do
  let wanted := goals.filter fun goal => !bound.contains goal
  match param, argument with
  | .tuple formals, .var whole =>
      if wanted.contains whole then
        let clash (name : Name) : Bool :=
          name = whole || goals.contains name || bound.contains name
        match ← nameRows param clash formals with
        | .error refusal => return .error refusal
        | .ok (goals, replacements) =>
            return .ok ⟨goals, replacements, .var whole, []⟩
      else ofComponents param argument wanted
  | _, _ => ofComponents param argument wanted

end CallShape

/-- A scan of the generator, whose rows have to satisfy the residual
conditions, stands for the call of a predicate. -/
structure InvertedCall where
  generator : Generator
  residual : List Expr

/-- What inverts predicates: the declarations, the names that fresh ones have
to avoid besides those in sight, how clauses are inverted, and the settings. -/
structure PredicateInverter where
  program : Program
  avoided : List Name
  invertClause : Inverter
  settings : Settings

namespace PredicateInverter

/-- The inverter of a program's predicates. -/
def ofProgram (program : Program) (settings : Settings) :
    PredicateInverter where
  program := program
  avoided := program.names
  invertClause := Inversion.base program
  settings := settings

/-- Invert a body whose parameter is lined up with the argument of a call. -/
def invertBody (inverter : PredicateInverter) (predicate : Name) (body : Expr)
    (bound : NameMap Generator) (shape : CallShape) :
    Naming (Except Refusal InvertedCall) := do
  let body ← body.substitute shape.replacements
  let scope := Scope.initial shape.goals bound
  let tree ← AnalysisTree.build inverter.program inverter.invertClause
    [predicate] scope body
  match Recursion.ofTree inverter.settings scope.goals tree with
  | .error refusal => return .error refusal
  | .ok recursion =>
      let generator ← recursion.plan inverter.settings
      return .ok ⟨{ generator with pattern := shape.pattern }, shape.residual⟩

/-- Invert the call of a predicate into a finite generator of some goals, where
some variables are bound already. -/
def invert (inverter : PredicateInverter) (call : Expr) (goals : List Name)
    (bound : NameMap Generator) : Except Refusal InvertedCall := do
  if !inverter.settings.enabled then throw (.noMatch .disabled)
  match call.namedCall? with
  | none => throw (.noMatch (.notCall call))
  | some (predicate, argument) =>
      match inverter.program.decl? predicate with
      | some (.function _ param body) =>
          let supply := NameSupply.reserving
            (body.allNames ++ call.allNames ++ goals ++ bound.keys ++
              inverter.avoided ++ param.vars ++ Builtin.names)
          let invert : Naming (Except Refusal InvertedCall) := do
            match ← CallShape.ofCall param argument goals bound with
            | .error refusal => return .error refusal
            | .ok shape => inverter.invertBody predicate body bound shape
          (invert.run supply).1
      | _ => throw (.notFunction predicate)

/-- Whether an expression calls a declared function. -/
def isCall (inverter : PredicateInverter) (expr : Expr) : Bool :=
  match expr.namedCall? with
  | some (function, _) =>
      match inverter.program.decl? function with
      | some decl => decl.isFunction
      | none => false
  | none => false

/-- The plan of a query whose only scan has no source and whose first step
filters by a call.  The first such call becomes the source; the other conditions
remain. -/
def planQuery (inverter : PredicateInverter) (query : Query) :
    Except Refusal Query := do
  match query.scans with
  | [⟨pattern, some _⟩] => throw (.noMatch (.sourced pattern))
  | [⟨pattern, none⟩] =>
      match query.steps with
      | .filter condition :: rest =>
          let conjuncts := condition.conjuncts
          match conjuncts.findIdx? inverter.isCall with
          | none => throw (.noMatch (.noCall condition))
          | some index =>
              let call := conjuncts.getD index condition
              let inverted ← inverter.invert call pattern.vars []
              let conditions := inverted.residual ++ conjuncts.eraseIdx index
              let filters :=
                if conditions.isEmpty then []
                else [Step.filter (.conjunction conditions)]
              let output ←
                if inverted.generator.pattern ≠ pattern && !query.hasYield then
                  match pattern.toExpr? with
                  | some row => pure [Step.yield row]
                  | none => throw (.noMatch (.notProjectable pattern))
                else pure []
              return ⟨[inverted.generator.scan], filters ++ rest ++ output⟩
      | _ => throw (.noMatch .noLeadingFilter)
  | _ => throw (.noMatch .severalScans)

/-- The plan of a `from` query. -/
def plan (inverter : PredicateInverter) : Expr → Except Refusal Expr
  | .collect query => do return .collect (← inverter.planQuery query)
  | expr => throw (.noMatch (.notQuery expr))

end PredicateInverter

end RecursiveQuery
