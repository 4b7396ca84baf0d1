import RecursiveQuery.Inversion.Base

/-!
# Analysis trees

The tree of a predicate body: branches for disjunctions, sequences for
conjunctions, and terminals for single clauses, which are either recursive
calls or inverted.
-/

namespace RecursiveQuery

inductive TerminalKind where
  | recursive (function : Name) (argument : Expr)
  | inverted (inversion : Inversion)

structure Terminal where
  term : Expr
  kind : TerminalKind

/-- In a sequence each child is analysed in the scope that the ones before it
leave; `joins` are the variables that clauses share. -/
inductive AnalysisTree where
  | terminal (terminal : Terminal)
  | branch (left right : AnalysisTree)
  | sequence (children : List AnalysisTree) (joins : List Name)

namespace AnalysisTree

mutual

def recursiveCalls : AnalysisTree → Nat
  | terminal ⟨_, .recursive _ _⟩ => 1
  | terminal ⟨_, .inverted _⟩ => 0
  | branch left right => recursiveCalls left + recursiveCalls right
  | sequence children _ => recursiveCallsList children

def recursiveCallsList : List AnalysisTree → Nat
  | [] => 0
  | child :: children => recursiveCalls child + recursiveCallsList children

end

def isRecursive (tree : AnalysisTree) : Bool :=
  tree.recursiveCalls > 0

/-- The arms of a chain of branches that leans to the right. -/
def arms : AnalysisTree → List AnalysisTree
  | branch left right => left :: arms right
  | tree => [tree]

mutual

def depth : AnalysisTree → Nat
  | terminal _ => 1
  | branch left right => 1 + max (depth left) (depth right)
  | sequence children _ => 1 + depthList children

/-- The depth of the deepest of some trees. -/
def depthList : List AnalysisTree → Nat
  | [] => 0
  | child :: children => max (depth child) (depthList children)

end

mutual

/-- The scope after a tree has produced its variables.  A recursive call counts
as finite, because it ranges over the fixpoint that is being computed. -/
def extend (scope : Scope) : AnalysisTree → Scope
  | terminal ⟨_, .inverted (.generated generator _)⟩ => scope.produce generator
  | terminal ⟨_, .inverted _⟩ => scope
  | terminal ⟨_, .recursive function argument⟩ =>
      match argument.toPattern? with
      | some pattern => scope.produce ⟨pattern, .var function, .list, .finite⟩
      | none => scope
  | branch _ _ => scope
  | sequence children _ => extendList scope children

def extendList (scope : Scope) : List AnalysisTree → Scope
  | [] => scope
  | child :: children => extendList (extend scope child) children

end

/-- A single clause: the call of an active function is recursive, anything else
is inverted. -/
def leaf (invert : Inverter) (active : List Name) (scope : Scope)
    (expr : Expr) : Naming AnalysisTree := do
  let inverted : Naming AnalysisTree := do
    return terminal ⟨expr, .inverted (← invert active scope expr)⟩
  match expr.namedCall? with
  | some (function, argument) =>
      if active.contains function && !scope.isBound function &&
        !scope.isGoal function then
        return terminal ⟨expr, .recursive function argument⟩
      else inverted
  | none => inverted

/-- Build trees from left to right, each in the scope that the ones before it
leave. -/
def buildEach (build : Scope → Expr → Naming AnalysisTree) :
    List Expr → Scope → Naming (List AnalysisTree)
  | [], _ => return []
  | clause :: clauses, scope => do
      let child ← build scope clause
      let children ← buildEach build clauses (child.extend scope)
      return child :: children

/-- The variables of two or more clauses that are no goals. -/
def joinVars (program : Program) (scope : Scope) (clauses : List Expr) :
    List Name :=
  let locals := clauses.flatMap (scope.locals program)
  Name.ascending (locals.filter fun name =>
    locals.count name ≥ 2 && !scope.isGoal name)

/-- Build the tree of an expression of at most a given size. -/
def buildWithin (program : Program) (invert : Inverter) (active : List Name) :
    (size : Nat) → Scope → Expr → Naming AnalysisTree
  | 0, scope, expr => leaf invert active scope expr
  | size + 1, scope, expr => do
      match expr.disjuncts with
      | first :: second :: rest =>
          let left ← buildWithin program invert active size scope first
          let right ← buildWithin program invert active size scope
            (.disjunction second rest)
          return branch left right
      | _ =>
          match ← scope.flatten program expr with
          | [] => leaf invert active scope expr
          | [single] =>
              if single = expr then leaf invert active scope expr
              else buildWithin program invert active size scope single
          | clauses =>
              let joins := joinVars program scope clauses
              let children ← buildEach (buildWithin program invert active size)
                clauses (scope.withJoins joins)
              return sequence children joins

/-- Build the tree of an expression. -/
def build (program : Program) (invert : Inverter) (active : List Name)
    (scope : Scope) (expr : Expr) : Naming AnalysisTree :=
  buildWithin program invert active expr.size scope expr

end AnalysisTree

end RecursiveQuery
