import RecursiveQuery.Proofs.FixpointRuns
import RecursiveQuery.Proofs.StepBodies

/-!
# Sources of steps

A step that scans the rows found so far in place of a relation is a step with
another source.  So each round of a fixpoint has the rows that follow from its
increment by the steps as they are scanned, whatever these scan.
-/

namespace RecursiveQuery

namespace StepClause

/-- The clause with another source. -/
def scanning (source : Expr → Expr) : StepClause → StepClause
  | scan generator residual =>
      scan { generator with source := source generator.source } residual
  | filter condition => filter condition
  | recursive function argument => recursive function argument

variable {source : Expr → Expr} {clauses : List StepClause}

theorem produced_scanning (clause : StepClause) :
    (clause.scanning source).produced = clause.produced := by
  cases clause <;> rfl

theorem flatMap_produced_scanning :
    (clauses.map (scanning source)).flatMap produced =
    clauses.flatMap produced := by
  rw [List.flatMap_map]
  exact congrArg (clauses.flatMap ·) (funext produced_scanning)

theorem isLinear_scanning (clause : StepClause) :
    (clause.scanning source).isLinear = clause.isLinear := by
  cases clause <;> rfl

theorem areNew_scanning {before : List Name} (isNew : areNew before clauses) :
    areNew before (clauses.map (scanning source)) := by
  induction clauses generalizing before with
  | nil => trivial
  | cons clause clauses induction =>
      obtain ⟨first, rest⟩ := isNew
      refine ⟨?_, ?_⟩
      · cases clause <;> exact first
      · rw [produced_scanning]
        exact induction rest

section Found

variable {found : Name}
  (either : ∀ expr, source expr = expr ∨ source expr = .var found)

include either

theorem isAmong_scanning {names : List Name} {clause : StepClause}
    (among : clause.IsAmong names) :
    (clause.scanning source).IsAmong (found :: names) := by
  cases clause with
  | scan generator residual =>
      obtain ⟨pattern, sourceAmong, conditions⟩ := among
      refine ⟨List.subset_cons_of_subset _ pattern, ?_,
        fun condition member =>
          List.subset_cons_of_subset _ (conditions condition member)⟩
      dsimp only
      rcases either generator.source with kept | isFound
      · rw [kept]
        exact List.subset_cons_of_subset _ sourceAmong
      · rw [isFound]
        intro name member
        rw [List.mem_singleton.mp member]
        exact List.mem_cons_self
  | filter condition => exact List.subset_cons_of_subset _ among
  | recursive function argument => exact List.subset_cons_of_subset _ among

/-- Scanning a name that no clause produces mentions no variable too early. -/
theorem areInOrder_scanning {before : List Name}
    (inOrder : areInOrder before clauses = true)
    (unproduced : found ∉ clauses.flatMap produced) :
    areInOrder before (clauses.map (scanning source)) = true := by
  induction clauses generalizing before with
  | nil => rfl
  | cons clause clauses induction =>
      rw [areInOrder, Bool.and_eq_true, List.all_eq_true] at inOrder
      rw [List.flatMap_cons, List.mem_append, not_or] at unproduced
      rw [List.map_cons, areInOrder, produced_scanning, Bool.and_eq_true,
        List.all_eq_true, ← List.map_cons, flatMap_produced_scanning]
      refine ⟨?_, induction inOrder.2 unproduced.2⟩
      intro name isSource
      have kept (inSource : name ∈ clause.sourceVars) := inOrder.1 name inSource
      cases clause with
      | scan generator residual =>
          rcases either generator.source with same | isFound
          · rw [scanning, sourceVars, same] at isSource
            exact kept isSource
          · rw [scanning, sourceVars, isFound] at isSource
            rw [List.mem_singleton.mp isSource, List.flatMap_cons]
            simp [unproduced]
      | filter condition => cases isSource
      | recursive function argument => cases isSource

end Found

end StepClause

namespace StepCase

/-- The step with other sources. -/
def scanning (case : StepCase) (source : Expr → Expr) : StepCase where
  clauses := case.clauses.map (StepClause.scanning source)
  joins := case.joins

/-- The source of a scan: the rows found so far in place of one source. -/
def sourceOf (found : Name) (accumulated : Option Expr) (expr : Expr) : Expr :=
  if accumulated = some expr then .var found else expr

theorem sourceOf_cases (found : Name) (accumulated : Option Expr)
    (expr : Expr) :
    sourceOf found accumulated expr = expr ∨
      sourceOf found accumulated expr = .var found := by
  rw [sourceOf]
  by_cases isAccumulated : accumulated = some expr
  · exact .inr (if_pos isAccumulated)
  · exact .inl (if_neg isAccumulated)

theorem sourceOf_none (found : Name) : sourceOf found none = id := by
  funext expr
  exact if_neg (Option.some_ne_none expr).symm

theorem scansOf_scanning (increment : Name) (source : Expr → Expr)
    (clauses : List StepClause) (inScope : List Name) :
    scansOf increment source clauses inScope =
      scansOf increment id (clauses.map (StepClause.scanning source))
        inScope := by
  induction clauses generalizing inScope with
  | nil => rfl
  | cons clause clauses induction =>
      cases clause with
      | filter condition =>
          rw [List.map_cons, StepClause.scanning, scansOf, scansOf, induction]
      | scan generator residual =>
          rw [List.map_cons, StepClause.scanning, scansOf, scansOf]
          simp only [induction, id_eq]
      | recursive function argument =>
          rw [List.map_cons, StepClause.scanning, scansOf, scansOf]
          simp only [induction]

/-- A step that scans the rows found so far is a step with another source. -/
theorem body_scanning (case : StepCase) (goal : Expr) (found increment : Name)
    (accumulated : Option Expr) :
    case.body goal found increment accumulated =
      (case.scanning (sourceOf found accumulated)).body goal found increment
        none := by
  rw [body, body]
  change
    (scansOf increment (sourceOf found accumulated) case.clauses [] >>= _) =
    (scansOf increment (sourceOf found none) _ [] >>= _)
  rw [sourceOf_none, scansOf_scanning]
  rfl

/-- A step whose clauses can be scanned one by one: each variable is bound once,
and no source mentions one that is not bound yet. -/
structure Regular (names goals : List Name) (case : StepCase) : Prop where
  among : ∀ clause ∈ case.clauses, clause.IsAmong names
  areNew : StepClause.areNew [] case.clauses
  covered : goals ⊆ case.clauses.flatMap StepClause.produced
  linear : ∀ clause ∈ case.clauses, clause.isLinear = true
  inOrder : StepClause.areInOrder [] case.clauses = true

theorem Regular.scanning {names goals : List Name} {case : StepCase}
    {found : Name} {source : Expr → Expr} (regular : case.Regular names goals)
    (either : ∀ expr, source expr = expr ∨ source expr = .var found)
    (foundNew : found ∉ names) :
    (case.scanning source).Regular (found :: names) goals := by
  constructor
  · intro clause member
    obtain ⟨original, isOriginal, same⟩ := List.mem_map.mp member
    subst same
    exact StepClause.isAmong_scanning either (regular.among original isOriginal)
  · exact StepClause.areNew_scanning regular.areNew
  · rw [StepCase.scanning, StepClause.flatMap_produced_scanning]
    exact regular.covered
  · intro clause member
    obtain ⟨original, isOriginal, same⟩ := List.mem_map.mp member
    subst same
    rw [StepClause.isLinear_scanning]
    exact regular.linear original isOriginal
  · apply StepClause.areInOrder_scanning either regular.inOrder
    intro isProduced
    exact foundNew (StepClause.IsAmong.produced regular.among isProduced)

/-- A body scans a realization of a step. -/
def IsRealizedBy (goals names : List Name) (increment : Name) (case : StepCase)
    (body : Expr) : Prop :=
  ∃ parts conditions aliases,
    body = .collect
      (.filtered (parts.map Generator.scan) conditions (.row goals)) ∧
      StepClause.Realization increment names case.clauses parts
        conditions aliases

end StepCase

namespace Recursion

variable {recursion : Recursion} {settings : Settings}

/-- A step as the fixpoint scans it. -/
def stepOf (recursion : Recursion) (settings : Settings) (found : Name)
    (case : StepCase) : StepCase :=
  case.scanning (StepCase.sourceOf found
    (recursion.replacedSource? settings case))

/-- The step function of a fixpoint has a realization of each step. -/
theorem plan_realizes {supply : NameSupply}
    (regular : ∀ case ∈ recursion.steps,
      case.Regular supply.used recursion.goals) :
    (recursion.plan settings).Ensures supply fun fixpoint _ =>
    ∃ found increment bodies,
      found ∉ supply.used ∧ increment ∉ found :: supply.used ∧
      fixpoint.source = recursion.iteration found increment bodies ∧
      List.Forall₂
        (fun case body => (recursion.stepOf settings found case).IsRealizedBy
        recursion.goals (found :: supply.used) increment body) recursion.steps
        bodies := by
  apply plan_ensures
  intro found increment foundNew incrementNew case isStep later reserved
  rw [List.cons_subset] at reserved
  rw [StepCase.body_scanning]
  have scanned := (regular case isStep).scanning (StepCase.sourceOf_cases found
    (recursion.replacedSource? settings case)) foundNew
  exact StepCase.body_realizes scanned.among scanned.areNew scanned.linear
    scanned.inOrder reserved.2 reserved.1 incrementNew _ found

end Recursion

/-! ## Rows that follow -/

/-- Values without bags and functions for exactly some names. -/
structure Env.Chooses (chosen : Env) (names : List Name) : Prop where
  domain : ∀ name, (chosen.lookup name).isSome = names.contains name
  plain : ∀ name value, chosen.lookup name = some value →
    value.toExpr?.isSome = true

namespace Env.Chooses

variable {chosen : Env} {names : List Name}

theorem of_entries (keys : ∀ name, name ∈ names ↔ name ∈ chosen.map Prod.fst)
    (plain : ∀ entry ∈ chosen, entry.2.toExpr?.isSome = true) :
    chosen.Chooses names := by
  constructor
  · intro name
    rw [Bool.eq_iff_iff, List.contains_iff_mem, keys, Option.isSome_iff_exists]
    constructor
    · intro given
      obtain ⟨value, found⟩ := given
      exact List.mem_map_of_mem (NameMap.mem_of_lookup found)
    · exact NameMap.exists_lookup_of_mem
  · intro name value found
    exact plain _ (NameMap.mem_of_lookup found)

theorem assigns (chooses : chosen.Chooses names) :
    chosen.Assigns fun name => names.contains name :=
  ⟨chooses.domain, fun name value found =>
    Value.isFunctionFree_of_plain (chooses.plain name value found)⟩

theorem exists_lookup (chooses : chosen.Chooses names) {name : Name}
    (isName : name ∈ names) : ∃ value, chosen.lookup name = some value :=
  chooses.assigns.exists_lookup (List.contains_iff_mem.mpr isName)

theorem lookup_append (chooses : chosen.Chooses names) {name : Name}
    (isName : name ∈ names) (env : Env) :
    (chosen ++ env).lookup name = chosen.lookup name := by
  obtain ⟨value, found⟩ := chooses.exists_lookup isName
  rw [List.lookup_append, found, Option.some_or]

/-- One of the names gets another value. -/
theorem cons (chooses : chosen.Chooses names) {name : Name}
    (isName : name ∈ names) {value : Value}
    (isPlain : value.toExpr?.isSome = true) :
    Chooses ((name, value) :: chosen) names := by
  constructor
  · intro other
    rw [List.lookup_cons]
    cases equal : other == name with
    | true =>
        rw [beq_iff_eq.mp equal, List.contains_iff_mem.mpr isName]
        rfl
    | false => exact chooses.domain other
  · intro other found isFound
    rw [List.lookup_cons] at isFound
    cases equal : other == name with
    | true =>
        rw [equal] at isFound
        cases isFound
        exact isPlain
    | false =>
        rw [equal] at isFound
        exact chooses.plain other found isFound

theorem extendsPlainly (chooses : chosen.Chooses names) (env : Env) :
    env.ExtendsPlainly (chosen ++ env) := by
  intro name
  rw [List.lookup_append]
  cases found : chosen.lookup name with
  | none => exact .inl (Option.none_or)
  | some value =>
      exact .inr ⟨value, Option.some_or, chooses.plain name value found⟩

end Env.Chooses

/-- What holds for some values holds for the same values of its names. -/
theorem StepClause.HoldsIn.congr {session : Session} {clause : StepClause}
    {names : List Name} {env given other : Env} {new : List Value}
    {check : Site} (uniform : session.Uniform) (free : env.IsFunctionFree)
    (extended : env.ExtendsPlainly given)
    (plain : ∀ generator residual, clause = .scan generator residual →
      session.YieldsPlainly env generator.source)
    (among : clause.IsAmong names)
    (same : ∀ name ∈ names, other.lookup name = given.lookup name)
    (started : Session.Started check)
    (holds : clause.HoldsIn (session.evalIn check) new given) :
    clause.HoldsIn (session.evalIn check) new other := by
  have passes {condition : Expr} (conditionAmong : condition.freeVars ⊆ names)
      (isTrue : session.evalIn check given condition = .ok (.bool true)) :
      session.evalIn check other condition = .ok (.bool true) :=
    Session.evalIn_bool uniform started started
      ⟨fun name member => same name (conditionAmong member),
        fun name _ => extended.isFunctionFree free name⟩ isTrue
  cases clause with
  | scan generator residual =>
      obtain ⟨patternAmong, sourceAmong, residualAmong⟩ := among
      obtain ⟨⟨kind, rows, evaluated, row, member, read⟩, conditions⟩ := holds
      refine ⟨⟨kind, rows, ?_, row, member, ?_⟩, ?_⟩
      · exact (plain generator residual rfl).rows_eq uniform free extended
          (fun name inSource => same name (sourceAmong inSource)) started
          started evaluated
      · exact read.congr fun name occurs => same name (patternAmong occurs)
      · intro condition isResidual
        exact passes (residualAmong condition isResidual)
          (conditions condition isResidual)
  | filter condition => exact passes among holds
  | recursive function argument =>
      obtain ⟨row, member, read⟩ := holds
      exact ⟨row, member,
        read.congr fun name occurs => same name (among occurs)⟩

theorem StepClause.HoldsIn.mono {evaluate : Env → Expr → Outcome Value}
    {clause : StepClause} {env : Env} {new more : List Value}
    (holds : clause.HoldsIn evaluate new env) (subset : new ⊆ more) :
    clause.HoldsIn evaluate more env := by
  cases clause with
  | scan generator residual => exact holds
  | filter condition => exact holds
  | recursive function argument =>
      obtain ⟨row, member, read⟩ := holds
      exact ⟨row, subset member, read⟩

namespace StepCase

/-- A row follows from an increment: all clauses of a step hold for some values,
of which the row is the row of goals. -/
def Derives (session : Session) (goals : List Name) (case : StepCase)
    (env : Env) (new : List Value) (row : Value) : Prop :=
  ∃ chosen : Env, chosen.Chooses (case.clauses.flatMap StepClause.produced) ∧
    (∀ clause ∈ case.clauses,
      clause.HoldsIn (session.evalIn (Session.root 0)) new (chosen ++ env)) ∧
    (Expr.row goals).valueIn chosen = some row

variable {session : Session} {goals names : List Name} {case : StepCase}
  {env other : Env}
  {new more : List Value} {row : Value}

namespace Derives

theorem mono (derives : case.Derives session goals env new row)
    (subset : new ⊆ more) : case.Derives session goals env more row := by
  obtain ⟨chosen, chooses, holds, isRow⟩ := derives
  exact ⟨chosen, chooses,
    fun clause isClause => (holds clause isClause).mono subset, isRow⟩

/-- What follows has neither bags nor functions. -/
theorem plain (derives : case.Derives session goals env new row) :
    row.toExpr?.isSome = true := by
  obtain ⟨chosen, chooses, _, isRow⟩ := derives
  exact Expr.valueIn_forall Value.plain_ofLiteral
    (fun _ => Value.plain_tuple_iff.mpr) chooses.plain isRow

/-- What follows depends on the names of the step only. -/
theorem congr (derives : case.Derives session goals env new row)
    (uniform : session.Uniform) (free : env.IsFunctionFree)
    (among : ∀ clause ∈ case.clauses, clause.IsAmong names)
    (plain : ∀ generator residual, .scan generator residual ∈ case.clauses →
      session.YieldsPlainly env generator.source)
    (same : ∀ name ∈ names, other.lookup name = env.lookup name) :
    case.Derives session goals other new row := by
  obtain ⟨chosen, chooses, holds, isRow⟩ := derives
  refine ⟨chosen, chooses, ?_, isRow⟩
  intro clause isClause
  apply (holds clause isClause).congr uniform free
    (chooses.extendsPlainly env) _ (among clause isClause) _ (.root 0)
  · intro generator residual isScan
    subst isScan
    exact plain generator residual isClause
  · intro name isName
    rw [List.lookup_append, List.lookup_append, same name isName]

end Derives

/-- The rows of a realized step are those that follow. -/
theorem IsRealizedBy.mem_iff_derives {increment : Name} {body : Expr}
    (realized : case.IsRealizedBy goals names increment body)
    (covered : goals ⊆ case.clauses.flatMap StepClause.produced)
    (uniform : session.Uniform) (free : env.IsFunctionFree)
    {newKind : CollectionKind}
    (supplied : env.lookup increment = some (.collection newKind new))
    (newPlain : ∀ row ∈ new, row.toExpr?.isSome = true)
    (plain : ∀ generator residual, .scan generator residual ∈ case.clauses →
      session.YieldsPlainly env generator.source) {site : Site}
      (started : Session.Started site)
    {kind : CollectionKind} {rows : List Value}
    (evaluated : session.evalIn site env body = .ok (.collection kind rows))
    (row : Value) : row ∈ rows ↔ case.Derives session goals env new row := by
  obtain ⟨parts, conditions, aliases, isBody, realization⟩ := realized
  subst isBody
  have runs := realization.runs plain supplied newPlain
  -- All goals are produced, so that their row is built from the chosen values
  -- alone.
  have built {chosen : Env}
    (given : ∀ name ∈ goals, ∃ value, chosen.lookup name = some value) :
      session.evalIn (Session.root 0) (chosen ++ env) (.row goals) = .ok row ↔
        (Expr.row goals).valueIn chosen = some row := by
    have same : (Expr.row goals).valueIn (chosen ++ env) =
      (Expr.row goals).valueIn chosen := by
      apply Expr.valueIn_congr
      intro name isGoal
      rw [Expr.freeVars_row] at isGoal
      obtain ⟨value, found⟩ := given name isGoal
      rw [List.lookup_append, found, Option.some_or]
    obtain ⟨value, isValue⟩ := Expr.exists_valueIn_row given
    have evaluatedRow : session.evalIn (Session.root 0) (chosen ++ env)
      (.row goals) = .ok value :=
      Expr.eval_of_valueIn (same.trans isValue)
    rw [evaluatedRow, isValue, Except.ok.injEq, Option.some.injEq]
  constructor
  · intro member
    obtain ⟨chosen, assigns, chosenPlain, holds, evaluatedRow⟩ :=
      runs.exists_chosen_of_mem uniform
      free started (.root 0) covered evaluated member
    have chooses : chosen.Chooses (case.clauses.flatMap StepClause.produced) :=
      ⟨assigns.domain, chosenPlain⟩
    exact ⟨chosen, chooses, holds,
      (built fun name isGoal => chooses.exists_lookup (covered isGoal)).mp
      evaluatedRow⟩
  · intro derives
    obtain ⟨chosen, chooses, holds, isRow⟩ := derives
    exact runs.mem_of_holdsIn uniform free started (.root 0) covered evaluated
      chooses.assigns holds
      ((built fun name isGoal => chooses.exists_lookup (covered isGoal)).mpr
        isRow)

end StepCase

end RecursiveQuery
