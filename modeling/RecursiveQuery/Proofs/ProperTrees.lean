import RecursiveQuery.Proofs.Connectives
import RecursiveQuery.Proofs.ReadTrees

/-!
# Proper trees

A variable that planning takes for a pattern has to be an identifier, so that a
name with dots may occur in a proper tree only as the function of an
application.  Taking connectives apart, joining them again and moving between
expressions and patterns keeps trees proper.
-/

namespace RecursiveQuery

namespace Name

variable {name : Name}

def isDotted (name : Name) : Bool :=
  name.toList.contains '.'

theorem isQualified_of_isIdentifier (identifier : name.isIdentifier = true) :
    name.isQualified = true := by
  simpa using @Reader.isQualified_of_parts name [] identifier (by simp)

theorem isIdentifier_iff :
    name.isIdentifier = true ↔ name.isQualified = true ∧
      name.isDotted = false := by
  constructor
  · intro identifier
    refine ⟨isQualified_of_isIdentifier identifier, ?_⟩
    have noDot :=
      Reader.not_mem_dot_of_isWord (Reader.isWord_of_isIdentifier identifier)
    simpa [isDotted] using noDot
  · rintro ⟨qualified, plain⟩
    obtain ⟨first, parts, identifier, -, spelled⟩ :=
      Reader.exists_of_isQualified qualified
    cases parts with
    | nil =>
        have equality : name = first := by
          rw [List.flatMap_nil, List.append_nil] at spelled
          exact String.toList_inj.mp spelled
        rwa [equality]
    | cons part parts => simp [isDotted, spelled] at plain

end Name

namespace Expr

mutual

/-- Whether names with dots occur only as functions of applications. -/
def dotsOnlyCalls : Expr → Bool
  | literal _ => true
  | var name => !name.isDotted
  | tuple items | list items => dotsOnlyCallsList items
  | apply (var _) argument => dotsOnlyCalls argument
  | apply function argument => dotsOnlyCalls function && dotsOnlyCalls argument
  | lambda _ body => dotsOnlyCalls body
  | andAlso left right | orElse left right | binary _ left right =>
      dotsOnlyCalls left && dotsOnlyCalls right
  | collect query | existence query => dotsOnlyCallsQuery query

def dotsOnlyCallsList : List Expr → Bool
  | [] => true
  | item :: items => dotsOnlyCalls item && dotsOnlyCallsList items

def dotsOnlyCallsQuery : Query → Bool
  | ⟨scans, steps⟩ => dotsOnlyCallsScans scans && dotsOnlyCallsSteps steps

def dotsOnlyCallsScans : List Scan → Bool
  | [] => true
  | ⟨_, none⟩ :: scans => dotsOnlyCallsScans scans
  | ⟨_, some source⟩ :: scans =>
      dotsOnlyCalls source && dotsOnlyCallsScans scans

def dotsOnlyCallsSteps : List Step → Bool
  | [] => true
  | .filter condition :: steps =>
      dotsOnlyCalls condition && dotsOnlyCallsSteps steps
  | .yield value :: steps => dotsOnlyCalls value && dotsOnlyCallsSteps steps

end

theorem dotsOnlyCallsList_iff {items : List Expr} :
    dotsOnlyCallsList items = true ↔
      ∀ item ∈ items, item.dotsOnlyCalls = true := by
  induction items with
  | nil => simp [dotsOnlyCallsList]
  | cons item items induction => simp [dotsOnlyCallsList, induction]

theorem dotsOnlyCallsScans_iff {scans : List Scan} :
    dotsOnlyCallsScans scans = true ↔
      ∀ scan ∈ scans, scan.source.all dotsOnlyCalls = true := by
  induction scans with
  | nil => simp [dotsOnlyCallsScans]
  | cons scan scans induction =>
      obtain ⟨pattern, source⟩ := scan
      cases source <;> simp [dotsOnlyCallsScans, induction]

theorem dotsOnlyCallsSteps_iff {steps : List Step} :
    dotsOnlyCallsSteps steps = true ↔
      ∀ step ∈ steps, step.expr.dotsOnlyCalls = true := by
  induction steps with
  | nil => simp [dotsOnlyCallsSteps]
  | cons step steps induction =>
      cases step <;> simp [dotsOnlyCallsSteps, Step.expr, induction]

/-- A well-formed expression in which names with dots are only called. -/
def Proper (expr : Expr) : Prop :=
  expr.isWellFormed = true ∧ expr.dotsOnlyCalls = true

/-- An expression that may be the function of a proper application. -/
def ProperFunction : Expr → Prop
  | var name => name.isQualified = true
  | function => function.Proper

end Expr

/-- A well-formed pattern with a proper source, if there is one. -/
def Scan.Proper (scan : Scan) : Prop :=
  scan.pattern.isWellFormed = true ∧ ∀ source ∈ scan.source, source.Proper

def Step.Proper (step : Step) : Prop :=
  step.expr.Proper

def Query.Proper (query : Query) : Prop :=
  query.scans ≠ [] ∧ (∀ scan ∈ query.scans, scan.Proper) ∧
    ∀ step ∈ query.steps, step.Proper

namespace Expr

variable {items : List Expr} {left right expr : Expr} {query : Query}

@[simp] theorem proper_literal {value : Literal} :
    (literal value).Proper ↔ value.isWellFormed = true :=
  ⟨fun proper => proper.1, fun formed => ⟨formed, rfl⟩⟩

@[simp] theorem proper_var {name : Name} :
    (var name).Proper ↔ name.isIdentifier = true := by
  change (name.isQualified = true ∧ (!name.isDotted) = true) ↔ _
  rw [Name.isIdentifier_iff, Bool.not_eq_true']

theorem forall_proper :
    (∀ item ∈ items, item.Proper) ↔
      areWellFormed items = true ∧ dotsOnlyCallsList items = true := by
  rw [areWellFormed_iff, dotsOnlyCallsList_iff]
  exact ⟨fun proper => ⟨fun item member => (proper item member).1,
    fun item member => (proper item member).2⟩,
    fun ⟨formed, dotted⟩ item member =>
      ⟨formed item member, dotted item member⟩⟩

@[simp] theorem proper_tuple :
    (tuple items).Proper ↔ 2 ≤ items.length ∧ ∀ item ∈ items, item.Proper := by
  change ((decide (2 ≤ items.length) && areWellFormed items) = true ∧
    dotsOnlyCallsList items = true) ↔ _
  rw [forall_proper, Bool.and_eq_true, decide_eq_true_eq, and_assoc]

@[simp] theorem proper_list :
    (list items).Proper ↔ ∀ item ∈ items, item.Proper :=
  forall_proper.symm

@[simp] theorem proper_lambda {param : Pattern} {body : Expr} :
    (lambda param body).Proper ↔ param.isWellFormed = true ∧ body.Proper := by
  change ((param.isWellFormed && body.isWellFormed) = true ∧
    body.dotsOnlyCalls = true) ↔ _
  rw [Bool.and_eq_true, and_assoc]
  rfl

theorem proper_both :
    (left.isWellFormed && right.isWellFormed) = true ∧
        (left.dotsOnlyCalls && right.dotsOnlyCalls) = true ↔
      left.Proper ∧ right.Proper := by
  rw [Bool.and_eq_true, Bool.and_eq_true]
  exact and_and_and_comm

@[simp] theorem proper_andAlso :
    (andAlso left right).Proper ↔ left.Proper ∧ right.Proper :=
  proper_both

@[simp] theorem proper_orElse :
    (orElse left right).Proper ↔ left.Proper ∧ right.Proper :=
  proper_both

@[simp] theorem proper_binary {op : BinaryOp} :
    (binary op left right).Proper ↔ left.Proper ∧ right.Proper :=
  proper_both

@[simp] theorem proper_apply {function argument : Expr} :
    (apply function argument).Proper ↔ function.ProperFunction ∧
    argument.Proper := by
  cases function with
  | var name =>
      change ((name.isQualified && argument.isWellFormed) = true ∧
        argument.dotsOnlyCalls = true) ↔ _
      rw [Bool.and_eq_true, and_assoc]
      rfl
  | _ => exact proper_both

theorem properQuery_iff :
    isWellFormedQuery query = true ∧ dotsOnlyCallsQuery query = true ↔
      query.Proper := by
  obtain ⟨scans, steps⟩ := query
  simp only [isWellFormedQuery, dotsOnlyCallsQuery, Query.Proper,
    Bool.and_eq_true, decide_eq_true_eq, List.length_pos_iff,
    areWellFormedScans_iff, areWellFormedSteps_iff, dotsOnlyCallsScans_iff,
    dotsOnlyCallsSteps_iff, Scan.Proper, Step.Proper, Proper,
    Option.all_eq_true]
  constructor
  · rintro ⟨⟨⟨nonempty, scansFormed⟩, stepsFormed⟩, scansDotted, stepsDotted⟩
    refine ⟨nonempty, ?_,
      fun step member => ⟨stepsFormed step member, stepsDotted step member⟩⟩
    intro scan member
    exact ⟨(scansFormed scan member).1, fun source sourceMember =>
      ⟨(scansFormed scan member).2 source sourceMember,
        scansDotted scan member source sourceMember⟩⟩
  · rintro ⟨nonempty, scansProper, stepsProper⟩
    refine
      ⟨⟨⟨nonempty, ?_⟩, fun step member => (stepsProper step member).1⟩, ?_,
      fun step member => (stepsProper step member).2⟩
    · intro scan member
      exact ⟨(scansProper scan member).1, fun source sourceMember =>
        ((scansProper scan member).2 source sourceMember).1⟩
    · intro scan member source sourceMember
      exact ((scansProper scan member).2 source sourceMember).2

@[simp] theorem proper_collect : (collect query).Proper ↔ query.Proper :=
  properQuery_iff

@[simp] theorem proper_existence : (existence query).Proper ↔ query.Proper :=
  properQuery_iff

theorem Proper.function (proper : expr.Proper) : expr.ProperFunction := by
  cases expr with
  | var name => exact Name.isQualified_of_isIdentifier (proper_var.mp proper)
  | _ => exact proper

/-- Only a called name may fail to be proper itself. -/
theorem ProperFunction.proper_or_var {function : Expr}
    (proper : function.ProperFunction) :
    function.Proper ∨ ∃ name, function = var name ∧
      name.isQualified = true := by
  cases function with
  | var name => exact .inr ⟨name, rfl, proper⟩
  | _ => exact .inl proper

/-! ## Connectives -/

theorem proper_conjuncts (proper : expr.Proper) :
    ∀ term ∈ expr.conjuncts, term.Proper :=
  forall_mem_conjuncts (fun _ _ => proper_andAlso.mp) proper

theorem proper_conjunction {terms : List Expr}
    (proper : ∀ term ∈ terms, term.Proper) : (conjunction terms).Proper :=
  conjunction_of_forall (proper_literal.mpr rfl)
    (fun _ _ left right => proper_andAlso.mpr ⟨left, right⟩) proper

/-! ## Patterns -/

mutual

theorem isWellFormed_of_toPattern? {expr : Expr} {pattern : Pattern}
    (proper : expr.Proper) (taken : expr.toPattern? = some pattern) :
    pattern.isWellFormed = true := by
  cases expr with
  | literal value =>
      cases taken
      exact proper_literal.mp proper
  | var name =>
      cases taken
      exact proper_var.mp proper
  | tuple items =>
      obtain ⟨patterns, takenItems, rfl⟩ := Option.map_eq_some_iff.mp taken
      obtain ⟨long, itemsProper⟩ := proper_tuple.mp proper
      obtain ⟨length, formed⟩ :=
        areWellFormed_of_toPatterns? itemsProper takenItems
      simp [Pattern.isWellFormed, formed, length, long]
  | _ => simp [toPattern?] at taken

theorem areWellFormed_of_toPatterns? {items : List Expr}
    {patterns : List Pattern} (proper : ∀ item ∈ items, item.Proper)
    (taken : toPatterns? items = some patterns) :
    patterns.length = items.length ∧ Pattern.areWellFormed patterns = true := by
  cases items with
  | nil =>
      cases taken
      exact ⟨rfl, rfl⟩
  | cons item items =>
      simp only [List.forall_mem_cons] at proper
      simp only [toPatterns?] at taken
      split at taken
      · next first rest takenFirst takenRest =>
          cases taken
          obtain ⟨length, formed⟩ :=
            areWellFormed_of_toPatterns? proper.2 takenRest
          exact ⟨congrArg (· + 1) length, by
            simp [Pattern.areWellFormed,
              isWellFormed_of_toPattern? proper.1 takenFirst, formed]⟩
      · cases taken

end

end Expr

namespace Pattern

mutual

theorem proper_of_toExpr? {pattern : Pattern} {expr : Expr}
    (formed : pattern.isWellFormed = true)
    (rebuilt : pattern.toExpr? = some expr) : expr.Proper := by
  cases pattern with
  | wildcard => cases rebuilt
  | var name =>
      cases rebuilt
      exact Expr.proper_var.mpr formed
  | literal value =>
      cases rebuilt
      exact Expr.proper_literal.mpr formed
  | tuple items =>
      obtain ⟨exprs, rebuiltItems, rfl⟩ := Option.map_eq_some_iff.mp rebuilt
      simp only [isWellFormed, Bool.and_eq_true, decide_eq_true_eq] at formed
      obtain ⟨length, proper⟩ := proper_of_toExprs? formed.2 rebuiltItems
      exact Expr.proper_tuple.mpr ⟨length ▸ formed.1, proper⟩

theorem proper_of_toExprs? {items : List Pattern} {exprs : List Expr}
    (formed : areWellFormed items = true)
    (rebuilt : toExprs? items = some exprs) :
    exprs.length = items.length ∧ ∀ expr ∈ exprs, expr.Proper := by
  cases items with
  | nil =>
      cases rebuilt
      exact ⟨rfl, by simp⟩
  | cons item items =>
      simp only [areWellFormed, Bool.and_eq_true] at formed
      simp only [toExprs?] at rebuilt
      split at rebuilt
      · next first rest rebuiltFirst rebuiltRest =>
          cases rebuilt
          obtain ⟨length, proper⟩ := proper_of_toExprs? formed.2 rebuiltRest
          exact ⟨congrArg (· + 1) length,
            List.forall_mem_cons.mpr
              ⟨proper_of_toExpr? formed.1 rebuiltFirst, proper⟩⟩
      · cases rebuilt

end

mutual

theorem isIdentifier_of_mem_occurrences {pattern : Pattern}
    (formed : pattern.isWellFormed = true) :
    ∀ name ∈ pattern.occurrences, name.isIdentifier = true := by
  cases pattern with
  | wildcard => simp [occurrences]
  | literal value => simp [occurrences]
  | var name => simpa [occurrences, isWellFormed] using formed
  | tuple items =>
      simp only [isWellFormed, Bool.and_eq_true] at formed
      exact isIdentifier_of_mem_occurrencesList formed.2

theorem isIdentifier_of_mem_occurrencesList {items : List Pattern}
    (formed : areWellFormed items = true) :
    ∀ name ∈ occurrencesList items, name.isIdentifier = true := by
  cases items with
  | nil => simp [occurrencesList]
  | cons item items =>
      simp only [areWellFormed, Bool.and_eq_true] at formed
      intro name member
      rcases List.mem_append.mp member with first | rest
      · exact isIdentifier_of_mem_occurrences formed.1 name first
      · exact isIdentifier_of_mem_occurrencesList formed.2 name rest

end

mutual

theorem isWellFormed_rename {change : Name → Name} {pattern : Pattern}
    (formed : pattern.isWellFormed = true)
    (identifiers : ∀ name ∈ pattern.occurrences,
      (change name).isIdentifier = true) :
    (pattern.rename change).isWellFormed = true := by
  cases pattern with
  | wildcard => rfl
  | literal value => exact formed
  | var name => exact identifiers name (by simp [occurrences])
  | tuple items =>
      simp only [isWellFormed, Bool.and_eq_true, decide_eq_true_eq] at formed
      obtain ⟨length, renamed⟩ := areWellFormed_renameList formed.2 identifiers
      simp [rename, isWellFormed, renamed, length, formed.1]

theorem areWellFormed_renameList {change : Name → Name} {items : List Pattern}
    (formed : areWellFormed items = true)
    (identifiers : ∀ name ∈ occurrencesList items,
      (change name).isIdentifier = true) :
    (renameList change items).length = items.length ∧
      areWellFormed (renameList change items) = true := by
  cases items with
  | nil => exact ⟨rfl, rfl⟩
  | cons item items =>
      simp only [areWellFormed, Bool.and_eq_true] at formed
      simp only [occurrencesList, List.forall_mem_append] at identifiers
      obtain ⟨length, renamed⟩ :=
        areWellFormed_renameList formed.2 identifiers.2
      refine ⟨congrArg (· + 1) length, ?_⟩
      simp [renameList, areWellFormed,
        isWellFormed_rename formed.1 identifiers.1, renamed]

end

/-- A row of at least one variable is well formed. -/
theorem isWellFormed_row {names : List Name} (nonempty : names ≠ [])
    (identifiers : ∀ name ∈ names, name.isIdentifier = true) :
    (row names).isWellFormed = true := by
  match names with
  | [] => exact absurd rfl nonempty
  | [name] => exact identifiers name List.mem_cons_self
  | first :: second :: rest =>
      have formed : areWellFormed ((first :: second :: rest).map var) =
        true := by
        rw [areWellFormed_iff]
        intro item member
        obtain ⟨name, inNames, rfl⟩ := List.mem_map.mp member
        exact identifiers name inNames
      simp only [row, isWellFormed, formed, Bool.and_true]
      simp

end Pattern

end RecursiveQuery
