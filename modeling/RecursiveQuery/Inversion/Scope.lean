import RecursiveQuery.Inversion.Generator
import RecursiveQuery.NameMap

/-!
# Scopes of the analysis

A scope says which variables are to be produced, which ones are produced
already and by what, and which ones are shared between clauses.
-/

namespace RecursiveQuery

structure Scope where
  goals : List Name
  bound : NameMap Generator
  joins : List Name

namespace Scope

/-- The scope at the start: each goal once, without those that are bound. -/
def initial (goals : List Name) (bound : NameMap Generator) : Scope where
  goals := (goals.filter fun goal => !bound.contains goal).eraseDups
  bound := bound
  joins := []

def isGoal (scope : Scope) (name : Name) : Bool :=
  scope.goals.contains name

def isBound (scope : Scope) (name : Name) : Bool :=
  scope.bound.contains name

def isJoin (scope : Scope) (name : Name) : Bool :=
  scope.joins.contains name

def generator? (scope : Scope) (name : Name) : Option Generator :=
  scope.bound.lookup name

def unboundGoals (scope : Scope) : List Name :=
  scope.goals.filter fun goal => !scope.isBound goal

def bind (scope : Scope) (name : Name) (generator : Generator) : Scope :=
  { scope with bound := scope.bound.insert name generator }

/-- Bind the variables of a generator that are not bound yet. -/
def produce (scope : Scope) (generator : Generator) : Scope :=
  generator.pattern.vars.foldl
    (fun scope name =>
      if scope.isBound name then scope else scope.bind name generator)
    scope

def withJoins (scope : Scope) (names : List Name) : Scope :=
  { scope with joins := scope.joins ++ names }

/-- Whether a name stands for a declaration or a builtin and not for a
variable. -/
def isGlobal (scope : Scope) (program : Program) (name : Name) : Bool :=
  !scope.isGoal name && !scope.isBound name &&
    (Builtin.names.contains name || (program.decl? name).isSome)

/-- The variables of an expression in ascending order. -/
def locals (scope : Scope) (program : Program) (expr : Expr) : List Name :=
  Name.ascending (expr.freeVars.filter fun name => !scope.isGlobal program name)

end Scope

end RecursiveQuery
