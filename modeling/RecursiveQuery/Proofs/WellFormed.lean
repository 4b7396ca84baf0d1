import RecursiveQuery.Program
import RecursiveQuery.Reader.Token

/-!
# Well-formed trees

The trees that have a written form: brackets around one component are not a
tuple, a comprehension scans something, the least integer has no magnitude that
can be read, and names are words.
-/

namespace RecursiveQuery

/-- A start character followed by continuing ones. -/
def isWord : List Char → Bool
  | [] => false
  | char :: rest => isWordStart char && rest.all isWordRest

namespace Name

def isIdentifier (name : Name) : Bool :=
  isWord name.toList && !keywords.contains name

/-- An identifier with any number of words behind it, each after a dot. -/
def isQualified (name : Name) : Bool :=
  match name.toList.splitOn '.' with
  | [] => false
  | first :: parts => isIdentifier (String.ofList first) && parts.all isWord

end Name

def Literal.isWellFormed : Literal → Bool
  | int value => decide (Int64.minValue < value)
  | _ => true

namespace Pattern

mutual

def isWellFormed : Pattern → Bool
  | wildcard => true
  | var name => Name.isIdentifier name
  | literal value => value.isWellFormed
  | tuple items => decide (2 ≤ items.length) && areWellFormed items

def areWellFormed : List Pattern → Bool
  | [] => true
  | item :: items => isWellFormed item && areWellFormed items

end

theorem areWellFormed_iff {items : List Pattern} :
    areWellFormed items = true ↔ ∀ item ∈ items, item.isWellFormed = true := by
  induction items with
  | nil => simp [areWellFormed]
  | cons item items induction => simp [areWellFormed, induction]

end Pattern

namespace Ty

mutual

def isWellFormed : Ty → Bool
  | unit | bool | int | string => true
  | tuple items => decide (2 ≤ items.length) && areWellFormed items
  | list element | bag element => isWellFormed element

def areWellFormed : List Ty → Bool
  | [] => true
  | item :: items => isWellFormed item && areWellFormed items

end

theorem areWellFormed_iff {items : List Ty} :
    areWellFormed items = true ↔ ∀ item ∈ items, item.isWellFormed = true := by
  induction items with
  | nil => simp [areWellFormed]
  | cons item items induction => simp [areWellFormed, induction]

end Ty

namespace Expr

mutual

def isWellFormed : Expr → Bool
  | literal value => value.isWellFormed
  | var name => Name.isQualified name
  | tuple items => decide (2 ≤ items.length) && areWellFormed items
  | list items => areWellFormed items
  | apply function argument => isWellFormed function && isWellFormed argument
  | lambda param body => param.isWellFormed && isWellFormed body
  | andAlso left right | orElse left right | binary _ left right =>
      isWellFormed left && isWellFormed right
  | collect query | existence query => isWellFormedQuery query

def areWellFormed : List Expr → Bool
  | [] => true
  | item :: items => isWellFormed item && areWellFormed items

def isWellFormedQuery : Query → Bool
  | ⟨scans, steps⟩ =>
      decide (0 < scans.length) && areWellFormedScans scans &&
        areWellFormedSteps steps

def areWellFormedScans : List Scan → Bool
  | [] => true
  | ⟨pattern, none⟩ :: scans => pattern.isWellFormed && areWellFormedScans scans
  | ⟨pattern, some source⟩ :: scans =>
      pattern.isWellFormed && isWellFormed source && areWellFormedScans scans

def areWellFormedSteps : List Step → Bool
  | [] => true
  | .filter condition :: steps =>
      isWellFormed condition && areWellFormedSteps steps
  | .yield value :: steps => isWellFormed value && areWellFormedSteps steps

end

theorem areWellFormed_iff {items : List Expr} :
    areWellFormed items = true ↔ ∀ item ∈ items, item.isWellFormed = true := by
  induction items with
  | nil => simp [areWellFormed]
  | cons item items induction => simp [areWellFormed, induction]

theorem areWellFormedScans_iff {scans : List Scan} :
    areWellFormedScans scans = true ↔
      ∀ scan ∈ scans, scan.pattern.isWellFormed = true ∧
        scan.source.all isWellFormed = true := by
  induction scans with
  | nil => simp [areWellFormedScans]
  | cons scan scans induction =>
      obtain ⟨pattern, source⟩ := scan
      cases source with
      | none => simp [areWellFormedScans, induction]
      | some source => simp [areWellFormedScans, induction, and_assoc]

theorem areWellFormedSteps_iff {steps : List Step} :
    areWellFormedSteps steps = true ↔
      ∀ step ∈ steps, step.expr.isWellFormed = true := by
  induction steps with
  | nil => simp [areWellFormedSteps]
  | cons step steps induction =>
      cases step <;> simp [areWellFormedSteps, Step.expr, induction]

end Expr

def Decl.isWellFormed : Decl → Bool
  | val name type value =>
      Name.isIdentifier name && type.all Ty.isWellFormed &&
        value.all Expr.isWellFormed
  | function name param body =>
      Name.isIdentifier name && param.isWellFormed && body.isWellFormed

def Program.isWellFormed (program : Program) : Bool :=
  program.decls.all Decl.isWellFormed

end RecursiveQuery
