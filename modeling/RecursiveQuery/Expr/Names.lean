import RecursiveQuery.Expr.Basic

/-!
# Names of expressions

A lambda binds its parameter's variables in its body.  Each scan of a
comprehension binds in the later sources and in all steps, but not in its own
source.
-/

namespace RecursiveQuery

/-- The names that are not among the bound ones. -/
def Name.outside (bound names : List Name) : List Name :=
  names.filter fun name => !bound.contains name

namespace Expr

mutual

/-- Free names with repetitions, function names included. -/
def freeVars : Expr → List Name
  | literal _ => []
  | var name => [name]
  | tuple items => freeVarsList items
  | list items => freeVarsList items
  | apply function argument => freeVars function ++ freeVars argument
  | lambda param body => Name.outside param.occurrences (freeVars body)
  | andAlso left right => freeVars left ++ freeVars right
  | orElse left right => freeVars left ++ freeVars right
  | binary _ left right => freeVars left ++ freeVars right
  | collect query => freeVarsQuery query
  | existence query => freeVarsQuery query

def freeVarsList : List Expr → List Name
  | [] => []
  | item :: items => freeVars item ++ freeVarsList items

def freeVarsQuery : Query → List Name
  | ⟨scans, steps⟩ => freeVarsScans scans (freeVarsSteps steps)

/-- Free names of scans in front of a body with the given free names. -/
def freeVarsScans : List Scan → List Name → List Name
  | [], body => body
  | ⟨pattern, none⟩ :: scans, body =>
      Name.outside pattern.occurrences (freeVarsScans scans body)
  | ⟨pattern, some source⟩ :: scans, body =>
      freeVars source ++
        Name.outside pattern.occurrences (freeVarsScans scans body)

def freeVarsSteps : List Step → List Name
  | [] => []
  | .filter condition :: steps => freeVars condition ++ freeVarsSteps steps
  | .yield value :: steps => freeVars value ++ freeVarsSteps steps

end

mutual

/-- Every name of an expression, free, bound or binding, with repetitions. -/
def allNames : Expr → List Name
  | literal _ => []
  | var name => [name]
  | tuple items => allNamesList items
  | list items => allNamesList items
  | apply function argument => allNames function ++ allNames argument
  | lambda param body => param.occurrences ++ allNames body
  | andAlso left right => allNames left ++ allNames right
  | orElse left right => allNames left ++ allNames right
  | binary _ left right => allNames left ++ allNames right
  | collect query => allNamesQuery query
  | existence query => allNamesQuery query

def allNamesList : List Expr → List Name
  | [] => []
  | item :: items => allNames item ++ allNamesList items

def allNamesQuery : Query → List Name
  | ⟨scans, steps⟩ => allNamesScans scans ++ allNamesSteps steps

def allNamesScans : List Scan → List Name
  | [] => []
  | ⟨pattern, none⟩ :: scans => pattern.occurrences ++ allNamesScans scans
  | ⟨pattern, some source⟩ :: scans =>
      pattern.occurrences ++ allNames source ++ allNamesScans scans

def allNamesSteps : List Step → List Name
  | [] => []
  | .filter condition :: steps => allNames condition ++ allNamesSteps steps
  | .yield value :: steps => allNames value ++ allNamesSteps steps

end

end Expr

end RecursiveQuery
