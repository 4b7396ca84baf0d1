import RecursiveQuery.Pattern

/-!
# Expressions

Expressions and the comprehensions inside them.  A comprehension has scans,
which bind variables from left to right, and steps, which filter and output
the scanned rows; `collect` gathers its rows and `existence` asks whether it
has one.
-/

namespace RecursiveQuery

inductive BinaryOp where
  | eq
  | ne
  | lt
  | le
  | gt
  | ge
  | member
  | append
  | add
  | sub
deriving DecidableEq

mutual

inductive Expr where
  | literal (value : Literal)
  | var (name : Name)
  | tuple (items : List Expr)
  | list (items : List Expr)
  | apply (function argument : Expr)
  | lambda (param : Pattern) (body : Expr)
  | andAlso (left right : Expr)
  | orElse (left right : Expr)
  | binary (op : BinaryOp) (left right : Expr)
  | collect (query : Query)
  | existence (query : Query)

/-- A comprehension body. -/
structure Query where
  scans : List Scan
  steps : List Step

/-- The rows of a source that match a pattern; without a source the pattern
ranges over the extent of its type. -/
structure Scan where
  pattern : Pattern
  source : Option Expr

inductive Step where
  | filter (condition : Expr)
  | yield (value : Expr)

end

/-- The expression of a step. -/
def Step.expr : Step → Expr
  | filter condition => condition
  | yield value => value

namespace Expr

mutual

/-- Structural equality of expressions. -/
def same : Expr → Expr → Bool
  | literal left, literal right => left == right
  | var left, var right => left == right
  | tuple left, tuple right => sameList left right
  | list left, list right => sameList left right
  | apply leftFn leftArg, apply rightFn rightArg =>
      same leftFn rightFn && same leftArg rightArg
  | lambda leftParam leftBody, lambda rightParam rightBody =>
      leftParam == rightParam && same leftBody rightBody
  | andAlso left₁ left₂, andAlso right₁ right₂ =>
      same left₁ right₁ && same left₂ right₂
  | orElse left₁ left₂, orElse right₁ right₂ =>
      same left₁ right₁ && same left₂ right₂
  | binary leftOp left₁ left₂, binary rightOp right₁ right₂ =>
      leftOp == rightOp && same left₁ right₁ && same left₂ right₂
  | collect left, collect right => sameQuery left right
  | existence left, existence right => sameQuery left right
  | _, _ => false
termination_by structural left => left

def sameList : List Expr → List Expr → Bool
  | [], [] => true
  | left :: lefts, right :: rights => same left right && sameList lefts rights
  | _, _ => false
termination_by structural left => left

def sameQuery : Query → Query → Bool
  | ⟨leftScans, leftSteps⟩, ⟨rightScans, rightSteps⟩ =>
      sameScans leftScans rightScans && sameSteps leftSteps rightSteps
termination_by structural left => left

def sameScans : List Scan → List Scan → Bool
  | [], [] => true
  | left :: lefts, right :: rights =>
      sameScan left right && sameScans lefts rights
  | _, _ => false
termination_by structural left => left

def sameScan : Scan → Scan → Bool
  | ⟨leftPattern, leftSource⟩, ⟨rightPattern, rightSource⟩ =>
      leftPattern == rightPattern && sameSource leftSource rightSource
termination_by structural left => left

def sameSource : Option Expr → Option Expr → Bool
  | none, none => true
  | some left, some right => same left right
  | _, _ => false
termination_by structural left => left

def sameSteps : List Step → List Step → Bool
  | [], [] => true
  | left :: lefts, right :: rights =>
      sameStep left right && sameSteps lefts rights
  | _, _ => false
termination_by structural left => left

def sameStep : Step → Step → Bool
  | .filter left, .filter right => same left right
  | .yield left, .yield right => same left right
  | _, _ => false
termination_by structural left => left

end

mutual

theorem same_iff (left right : Expr) :
    same left right = true ↔ left = right := by
  cases left <;> cases right <;>
    simp [same, same_iff, sameList_iff, sameQuery_iff, and_assoc]
termination_by structural left

theorem sameList_iff (left right : List Expr) :
    sameList left right = true ↔ left = right := by
  cases left <;> cases right <;> simp [sameList, same_iff, sameList_iff]
termination_by structural left

theorem sameQuery_iff (left right : Query) :
    sameQuery left right = true ↔ left = right := by
  cases left; cases right; simp [sameQuery, sameScans_iff, sameSteps_iff]
termination_by structural left

theorem sameScans_iff (left right : List Scan) :
    sameScans left right = true ↔ left = right := by
  cases left <;> cases right <;> simp [sameScans, sameScan_iff, sameScans_iff]
termination_by structural left

theorem sameScan_iff (left right : Scan) :
    sameScan left right = true ↔ left = right := by
  cases left; cases right; simp [sameScan, sameSource_iff]
termination_by structural left

theorem sameSource_iff (left right : Option Expr) :
    sameSource left right = true ↔ left = right := by
  cases left <;> cases right <;> simp [sameSource, same_iff]
termination_by structural left

theorem sameSteps_iff (left right : List Step) :
    sameSteps left right = true ↔ left = right := by
  cases left <;> cases right <;> simp [sameSteps, sameStep_iff, sameSteps_iff]
termination_by structural left

theorem sameStep_iff (left right : Step) :
    sameStep left right = true ↔ left = right := by
  cases left <;> cases right <;> simp [sameStep, same_iff]
termination_by structural left

end

instance : DecidableEq Expr := fun left right =>
  decidable_of_iff (same left right = true) (same_iff left right)

end Expr

end RecursiveQuery
