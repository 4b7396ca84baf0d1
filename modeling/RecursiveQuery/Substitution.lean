import RecursiveQuery.Expr.Names
import RecursiveQuery.NameMap
import RecursiveQuery.NameSupply

/-!
# Capture-avoiding substitution

All replacements happen at once.  A binder that would capture a free name of a
replacement is given a fresh name, which in turn replaces the bound one in its
scope.
-/

namespace RecursiveQuery

/-- A finite map from names to expressions; the first entry of a name
counts. -/
abbrev Replacements := NameMap Expr

namespace Replacements

/-- The replacements of the names that are not bound. -/
def outside (bound : List Name) (replacements : Replacements) : Replacements :=
  replacements.filter fun (name, _) => !bound.contains name

/-- The names that may be captured by a binder. -/
def freeVars (replacements : Replacements) : List Name :=
  replacements.flatMap fun (_, expr) => expr.freeVars

/-- Replace names by names. -/
def ofRenames (renames : List (Name × Name)) : Replacements :=
  renames.map fun (name, target) => (name, .var target)

end Replacements

/-- Draw a fresh name for each of some names. -/
def Naming.refresh : List Name → Naming (List (Name × Name))
  | [] => return []
  | name :: names => do
      let target ← NameSupply.fresh name
      let rest ← refresh names
      return (name, target) :: rest

/-- The new name of a name, if it has one. -/
def Name.renamed (renames : List (Name × Name)) (name : Name) : Name :=
  (renames.lookup name).getD name

/-- Enter the scope of a pattern: its variables are no longer replaced, and
those that would capture are renamed. -/
def Pattern.enter (pattern : Pattern) (replacements : Replacements) :
    Naming (Pattern × Replacements) := do
  let bound := pattern.vars
  let inner := replacements.outside bound
  let captured := inner.freeVars
  let renames ← Naming.refresh (bound.filter captured.contains)
  return (pattern.rename (Name.renamed renames), .ofRenames renames ++ inner)

namespace Expr

mutual

def substitute (replacements : Replacements) : Expr → Naming Expr
  | literal value => return literal value
  | var name => return (replacements.lookup name).getD (var name)
  | tuple items => do return tuple (← substituteList replacements items)
  | list items => do return list (← substituteList replacements items)
  | apply function argument => do
      let function ← substitute replacements function
      let argument ← substitute replacements argument
      return apply function argument
  | lambda param body => do
      let (param, inner) ← param.enter replacements
      return lambda param (← substitute inner body)
  | andAlso left right => do
      let left ← substitute replacements left
      let right ← substitute replacements right
      return andAlso left right
  | orElse left right => do
      let left ← substitute replacements left
      let right ← substitute replacements right
      return orElse left right
  | binary op left right => do
      let left ← substitute replacements left
      let right ← substitute replacements right
      return binary op left right
  | collect query => do return collect (← substituteQuery replacements query)
  | existence query =>
      do return existence (← substituteQuery replacements query)

def substituteList (replacements : Replacements) :
    List Expr → Naming (List Expr)
  | [] => return []
  | item :: items => do
      let item ← substitute replacements item
      let items ← substituteList replacements items
      return item :: items

def substituteQuery (replacements : Replacements) : Query → Naming Query
  | ⟨scans, steps⟩ => do
      let (scans, inner) ← substituteScans replacements scans
      return ⟨scans, ← substituteSteps inner steps⟩

/-- Each scan changes the replacements for the scans and steps behind it. -/
def substituteScans (replacements : Replacements) :
    List Scan → Naming (List Scan × Replacements)
  | [] => return ([], replacements)
  | ⟨pattern, source⟩ :: scans => do
      let source ← substituteSource replacements source
      let (pattern, inner) ← pattern.enter replacements
      let (scans, innermost) ← substituteScans inner scans
      return (⟨pattern, source⟩ :: scans, innermost)

def substituteSource (replacements : Replacements) :
    Option Expr → Naming (Option Expr)
  | none => return none
  | some source => do return some (← substitute replacements source)

def substituteSteps (replacements : Replacements) :
    List Step → Naming (List Step)
  | [] => return []
  | .filter condition :: steps => do
      let condition ← substitute replacements condition
      let steps ← substituteSteps replacements steps
      return .filter condition :: steps
  | .yield value :: steps => do
      let value ← substitute replacements value
      let steps ← substituteSteps replacements steps
      return .yield value :: steps

end

/-- Rename free names. -/
def renameFree (renames : List (Name × Name)) (expr : Expr) : Naming Expr :=
  expr.substitute (.ofRenames renames)

end Expr

end RecursiveQuery
