import Mathlib.Logic.Relation
import RecursiveQuery.Evaluation.Load
import RecursiveQuery.Inversion.Generator

/-!
# Path predicates

A path is a row of a base relation, or a row of a step relation together with a
path.  The step stands in front of the path (right-linear) or behind it
(left-linear), and the base relation may be the step relation itself.
-/

namespace RecursiveQuery

/-- A pair of integers. -/
abbrev Edge := Int64 × Int64

namespace Edge

def value (edge : Edge) : Value :=
  .tuple [.int edge.1, .int edge.2]

def literal (edge : Edge) : Expr :=
  .tuple [.int edge.1, .int edge.2]

/-- The list literal of some pairs. -/
def literals (edges : List Edge) : Expr :=
  .list (edges.map literal)

/-- The list of some pairs as a value. -/
def relation (edges : List Edge) : Value :=
  .collection .list (edges.map value)

end Edge

/-- A name is declared as the list literal of some pairs, without a type that
makes it a bag. -/
def Program.DeclaresEdges (program : Program) (name : Name)
    (edges : List Edge) : Prop :=
  ∃ type, program.decl? name =
    some (.val name type (some (Edge.literals edges))) ∧
    ∀ declared ∈ type, declared.isBag = false

/-- The values that a program declares are list literals of pairs. -/
def Program.DeclaresOnlyEdges (program : Program) : Prop :=
  ∀ name type value, .val name type (some value) ∈ program.decls →
    ∃ edges, value = Edge.literals edges

/-- The end of a path at which the step relation stands. -/
inductive Linearity where
  | right
  | left

structure PathPredicate where
  base : List Edge
  /-- The step relation, unless it is the base relation. -/
  step : Option (List Edge)
  linearity : Linearity
  /-- Whether the base arm stands before the recursive one. -/
  baseFirst : Bool

namespace PathPredicate

variable (predicate : PathPredicate)

/-- The rows of the step relation. -/
def stepEdges : List Edge :=
  predicate.step.getD predicate.base

/-- A bound on the pairs that edges can connect: their starts times their
ends. -/
def pairBound : Nat :=
  (predicate.base.length + predicate.stepEdges.length) *
    (predicate.base.length + predicate.stepEdges.length)

def stepName : Name :=
  if predicate.step.isSome then "s" else "b"

/-- Membership of a pair of variables in a relation. -/
def membership (first second relation : Name) : Expr :=
  .binary .member (.tuple [.var first, .var second]) (.var relation)

def call (first second : Name) : Expr :=
  .apply (.var "path") (.tuple [.var first, .var second])

def baseArm : Expr :=
  membership "x" "y" "b"

/-- The clauses of the recursive arm over an intermediate variable. -/
def clauses (middle : Name) : Expr × Expr :=
  match predicate.linearity with
  | .right => (membership "x" middle predicate.stepName, call middle "y")
  | .left => (call "x" middle, membership middle "y" predicate.stepName)

def stepQuery : Query :=
  ⟨[⟨.var "z", none⟩],
    [.filter (.andAlso (predicate.clauses "z").1 (predicate.clauses "z").2)]⟩

def stepArm : Expr :=
  .existence predicate.stepQuery

def param : Pattern :=
  .tuple [.var "x", .var "y"]

def body : Expr :=
  if predicate.baseFirst then .orElse baseArm predicate.stepArm
  else .orElse predicate.stepArm baseArm

/-- The declarations that a predicate consists of. -/
def decls : List Decl :=
  .val "b" none (some (Edge.literals predicate.base)) ::
    (predicate.step.map fun step =>
      Decl.val "s" none (some (Edge.literals step))).toList ++
    [.function "path" param predicate.body]

/-- A program in which a path predicate is declared; no declaration may hide
the fixpoint function of lists. -/
structure DeclaredIn (program : Program) : Prop where
  base : program.DeclaresEdges "b" predicate.base
  step : program.DeclaresEdges predicate.stepName predicate.stepEdges
  path : program.decl? "path" = some (.function "path" param predicate.body)
  iterate : program.decl? "List.iterate" = none

theorem declaredIn_decls : predicate.DeclaredIn ⟨predicate.decls⟩ := by
  obtain ⟨base, step, linearity, baseFirst⟩ := predicate
  cases step with
  | none => exact ⟨⟨none, rfl, by simp⟩, ⟨none, rfl, by simp⟩, rfl, rfl⟩
  | some step => exact ⟨⟨none, rfl, by simp⟩, ⟨none, rfl, by simp⟩, rfl, rfl⟩

theorem declaresOnlyEdges_decls :
    Program.DeclaresOnlyEdges ⟨predicate.decls⟩ := by
  intro name type value member
  cases step : predicate.step with
  | none =>
      simp [decls, step] at member
      exact ⟨predicate.base, member.2.2⟩
  | some edges =>
      simp [decls, step] at member
      rcases member with base | step
      · exact ⟨predicate.base, base.2.2⟩
      · exact ⟨edges, step.2.2⟩

/-- The paths from all starts to all ends. -/
def query : Expr :=
  .collect ⟨[⟨param, none⟩], [.filter (call "x" "y")]⟩

/-- A single row of the step relation. -/
def Steps (start target : Int64) : Prop :=
  (start, target) ∈ predicate.stepEdges

/-- What the predicate means: any number of steps in front of or behind a base
row. -/
def Connects (start target : Int64) : Prop :=
  match predicate.linearity with
  | .right => ∃ middle, Relation.ReflTransGen predicate.Steps start middle ∧
      (middle, target) ∈ predicate.base
  | .left => ∃ middle, (start, middle) ∈ predicate.base ∧
      Relation.ReflTransGen predicate.Steps middle target

end PathPredicate

end RecursiveQuery
