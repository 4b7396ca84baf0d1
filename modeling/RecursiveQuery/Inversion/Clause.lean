import RecursiveQuery.Inversion.Scope
import RecursiveQuery.Substitution

/-!
# Clauses of a condition

A condition is a list of clauses: its conjuncts, where an `exists` filter is
replaced by the clauses it stands for.  Its variables then share the scope of
all clauses, so that they are renamed when their names are taken.
-/

namespace RecursiveQuery

namespace Expr

mutual

/-- The names an expression mentions outside binders, in order. -/
def mentions : Expr → List Name
  | literal _ => []
  | var name => [name]
  | tuple items => mentionsList items
  | list items => mentionsList items
  | apply function argument => mentions function ++ mentions argument
  | lambda _ body => mentions body
  | andAlso left right => mentions left ++ mentions right
  | orElse left right => mentions left ++ mentions right
  | binary _ left right => mentions left ++ mentions right
  | collect ⟨scans, steps⟩ => mentionsScans scans ++ mentionsSteps steps
  | existence ⟨scans, steps⟩ => mentionsScans scans ++ mentionsSteps steps

def mentionsList : List Expr → List Name
  | [] => []
  | item :: items => mentions item ++ mentionsList items

def mentionsScans : List Scan → List Name
  | [] => []
  | ⟨_, none⟩ :: scans => mentionsScans scans
  | ⟨_, some source⟩ :: scans => mentions source ++ mentionsScans scans

def mentionsSteps : List Step → List Name
  | [] => []
  | .filter condition :: steps => mentions condition ++ mentionsSteps steps
  | .yield value :: steps => mentions value ++ mentionsSteps steps

end

/-- Some names in the order in which an expression first mentions them; names
it does not mention come last, in ascending order. -/
def appearanceOrder (expr : Expr) (keep : List Name) : List Name :=
  let mentioned := (expr.mentions.filter keep.contains).eraseDups
  mentioned ++ Name.outside mentioned (Name.ascending keep)

end Expr

namespace Query

/-- The clauses an `exists` filter stands for: membership in the source of
each scan, then every condition.  A wildcard in such a scan, an output or the
absence of conditions leaves the filter as it is. -/
def filterClauses? (query : Query) : Option (List Expr) :=
  if query.hasYield || !query.hasFilter then none
  else do
    let memberships ← query.scans.filterMapM fun
      | ⟨_, none⟩ => some none
      | ⟨pattern, some source⟩ => do
          let row ← pattern.toExpr?
          return some (.binary .member row source)
    let conditions := query.steps.filterMap fun
      | .filter condition => some condition
      | .yield _ => none
    return memberships ++ conditions

end Query

namespace Scope

/-- Whether a variable that leaves its `exists` needs another name. -/
def clashes (scope : Scope) (program : Program) (taken : List Name)
    (name : Name) : Bool :=
  scope.isGoal name || scope.isBound name || taken.contains name ||
    Builtin.names.contains name || (program.decl? name).isSome

/-- Name the variables of an `exists` apart from all taken names: the renamed
variables, and the taken names with the chosen ones. -/
def nameApart (scope : Scope) (program : Program) :
    List Name → (taken : List Name) → Naming (List (Name × Name) × List Name)
  | [], taken => return ([], taken)
  | name :: names, taken => do
      if scope.clashes program taken name then
        let target ← NameSupply.fresh name
        let (renames, taken) ← scope.nameApart program names (target :: taken)
        return ((name, target) :: renames, taken)
      else
        scope.nameApart program names (name :: taken)

/-- Rename each clause in turn. -/
def renameClauses (renames : List (Name × Name)) :
    List Expr → Naming (List Expr)
  | [] => return []
  | clause :: clauses => do
      let clause ← clause.renameFree renames
      let clauses ← renameClauses renames clauses
      return clause :: clauses

/-- Take an `exists` filter apart, if that is possible. -/
def unwrap (scope : Scope) (program : Program) (query : Query)
    (taken : List Name) : Naming (Option (List Expr) × List Name) := do
  match query.filterClauses? with
  | none => return (none, taken)
  | some clauses =>
      let (renames, taken) ← scope.nameApart program query.scanVars taken
      return (some (← renameClauses renames clauses), taken)

/-- Replace each of some expressions by a list, passing on the taken names. -/
def flattenEach
    (flatten : Expr → (taken : List Name) → Naming (List Expr × List Name)) :
    List Expr → (taken : List Name) → Naming (List Expr × List Name)
  | [], taken => return ([], taken)
  | expr :: exprs, taken => do
      let (first, taken) ← flatten expr taken
      let (rest, taken) ← flattenEach flatten exprs taken
      return (first ++ rest, taken)

/-- The clauses of an expression, where at most `nesting` filters inside each
other are taken apart. -/
def flattenWithin (scope : Scope) (program : Program) :
    (nesting : Nat) → Expr → (taken : List Name) →
    Naming (List Expr × List Name)
  | 0, expr, taken => return ([expr], taken)
  | nesting + 1, expr, taken =>
      flattenEach
        (fun conjunct taken => do
          match conjunct with
          | .existence query =>
              match ← scope.unwrap program query taken with
              | (none, taken) => return ([conjunct], taken)
              | (some clauses, taken) =>
                  flattenEach (flattenWithin scope program nesting)
                    clauses taken
          | other => return ([other], taken))
        expr.conjuncts taken

/-- The clauses of an expression.  The clauses of a filter are smaller than the
filter, so its size bounds the nesting. -/
def flatten (scope : Scope) (program : Program) (expr : Expr) :
    Naming (List Expr) := do
  let (clauses, _) ← scope.flattenWithin program expr.size expr expr.freeVars
  return clauses

end Scope

end RecursiveQuery
