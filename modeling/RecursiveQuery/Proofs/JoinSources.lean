import RecursiveQuery.Proofs.FoundRows

/-!
# Sources of joins

The source of joins is an option of the planner.  It decides on no refusal, and
plans whose steps scan no found rows do not depend on it.  All other plans have
a fixpoint over the base relation itself, so that the rows of two plans are the
same if those of their fixpoints are.
-/

namespace RecursiveQuery

namespace Recursion

variable {recursion : Recursion} {settings other : Settings}

theorem bodies_eq_bodies {found increment : Name} {cases : List StepCase}
    (same : ∀ case ∈ cases,
      recursion.stepOf settings found case =
        recursion.stepOf other found case) :
    recursion.bodies settings found increment cases =
      recursion.bodies other found increment cases := by
  induction cases with
  | nil => rfl
  | cons case cases induction =>
      rw [List.forall_mem_cons] at same
      rw [bodies, bodies, induction same.2, StepCase.body_scanning]
      conv => rhs; rw [StepCase.body_scanning]
      exact congrArg
        (fun step : StepCase => step.body _ found increment none >>= _) same.1

/-- Steps that scan the same sources have the same fixpoint. -/
theorem plan_eq_plan
    (same : ∀ found, ∀ case ∈ recursion.steps,
      recursion.stepOf settings found case =
        recursion.stepOf other found case) :
    recursion.plan settings = recursion.plan other := by
  have sameBodies (found increment : Name) :
      recursion.bodies settings found increment recursion.steps =
        recursion.bodies other found increment recursion.steps :=
          bodies_eq_bodies (same found)
  simp only [plan, sameBodies]

end Recursion

namespace CallStages

variable {program : Program} {settings : Settings} {call : Expr}
  {goals : List Name}
  (stages : CallStages program settings call goals)

/-- A fixpoint whose steps scan no found rows does not depend on the source of
joins. -/
theorem fixpoint_eq_fixpoint
    (kept : ∀ case ∈ stages.recursion.steps,
      stages.recursion.scansFound case = false)
    (source other : JoinSource) :
    stages.fixpoint source = stages.fixpoint other := by
  have same : stages.recursion.plan (settings.joining source) =
      stages.recursion.plan (settings.joining other) := by
    apply Recursion.plan_eq_plan
    intro found case isStep
    rw [Recursion.stepOf_eq_self (.inr (kept case isStep)),
      Recursion.stepOf_eq_self (.inr (kept case isStep))]
  rw [fixpoint, fixpoint, same]

theorem nodup_goals : stages.recursion.goals.Nodup := by
  rw [(Recursion.ofTree_cases stages.reads).1]
  exact nodup_eraseDups _

/-- The clauses of each step mention names in use, bind new variables and
produce all goals. -/
theorem step_cases {case : StepCase} (isStep : case ∈ stages.recursion.steps) :
    (∀ clause ∈ case.clauses, clause.IsAmong stages.supply.used) ∧
      StepClause.areNew [] case.clauses ∧
      stages.recursion.goals ⊆ case.clauses.flatMap StepClause.produced := by
  obtain ⟨declared, instantiatedReserved⟩ := stages.reserved
  have among : (Scope.initial stages.shape.goals []).BindsAmong
    stages.substituted.used := by
    intro name absurdity
    cases absurdity
  have isNew :
    stages.tree.IsNew stages.supply.used (.initial stages.shape.goals []) :=
    ((AnalysisTree.buildWithin_isNew (Inversion.within_isNew _ _) _ declared
      instantiatedReserved among).of_run stages.builds).2
  obtain ⟨sameGoals, _, fromArms⟩ := Recursion.ofTree_cases stages.reads
  obtain ⟨clausesAmong, areNew⟩ :=
    Recursion.ofTree_isNew isNew stages.reads case isStep
  obtain ⟨arm, _, readStep⟩ := fromArms case isStep
  obtain ⟨_, _, _, _, covered⟩ := StepCase.ofTree_cases readStep
  rw [← sameGoals] at covered
  exact ⟨clausesAmong, areNew, covered⟩

variable {session : Session} {side : PathEnd}
  (keeps : stages.recursion.KeepsEnd session side)

include keeps

theorem isPlain (uniform : session.Uniform) :
    stages.recursion.IsPlain session stages.supply.used := by
  refine ⟨uniform, ?_, keeps.plain⟩
  intro case isStep
  obtain ⟨clausesAmong, areNew, covered⟩ := stages.step_cases isStep
  exact ⟨clausesAmong, areNew, covered, keeps.linear case isStep,
    keeps.inOrder case isStep⟩

/-- Where found rows are scanned, the fixpoint starts from the base relation
itself. -/
theorem baseRelation_eq :
    stages.recursion.baseRelation = stages.recursion.base.generator.source := by
  obtain ⟨case, _, scans, _⟩ := keeps.hops
  rw [Recursion.scansFound, Bool.and_eq_true, Bool.and_eq_true,
    Bool.not_eq_true'] at scans
  rw [Recursion.baseRelation, scans.1.2]
  rfl

/-- The rows of a fixpoint that is planned for either source of joins. -/
theorem iterates (uniform : session.Uniform)
    (undeclared : ∀ kind,
      session.globals.lookup (Builtin.iterate kind).name = none)
    (source : JoinSource) {site : Site} (started : Session.Started site)
    {value : Value}
    (evaluated : session.evalIn site [] (stages.fixpoint source).source =
      .ok value) :
    ∃ kind base found increment rows,
      stages.recursion.HasBase session kind base ∧
      stages.recursion.Iterates session (settings.joining source)
        stages.supply.used found
        increment kind base rows ∧ value = .collection kind rows := by
  obtain ⟨found, increment, bodies, foundNew, incrementNew, isPlan, realized⟩ :=
    (Recursion.plan_realizes (stages.isPlain keeps uniform).regular).2
  have isFixpoint : (stages.fixpoint source).source = _ := isPlan
  rw [isFixpoint, Recursion.iteration,
    stages.baseRelation_eq keeps] at evaluated
  obtain ⟨base, rows, evaluatedBase, reached, isValue⟩ :=
    Session.exists_fixpoint_of_evalIn (Session.lookup_iterate (undeclared _))
      evaluated
  exact ⟨_, base, found, increment, rows,
    ⟨_, (started.cons 0).cons 1, evaluatedBase⟩,
    ⟨foundNew, incrementNew, bodies, site, realized, started, reached⟩, isValue⟩

theorem plain (uniform : session.Uniform)
    (undeclared : ∀ kind,
      session.globals.lookup (Builtin.iterate kind).name = none)
    (source : JoinSource) {site : Site} (started : Session.Started site)
    {kind : CollectionKind} {rows : List Value}
    (evaluated : session.evalIn site [] (stages.fixpoint source).source =
      .ok (.collection kind rows)) : ∀ row ∈ rows, row.toExpr?.isSome =
      true := by
  obtain ⟨_, _, _, _, _, hasBase, iterates, isValue⟩ :=
    stages.iterates keeps uniform undeclared source started evaluated
  cases isValue
  exact iterates.plain (stages.isPlain keeps uniform) (keeps.basePlain hasBase)

/-- The fixpoints for both sources of joins have the same rows. -/
theorem mem_iff_mem (uniform : session.Uniform)
    (undeclared : ∀ kind,
      session.globals.lookup (Builtin.iterate kind).name = none)
    {site site' : Site} (started : Session.Started site)
    (started' : Session.Started site') {kind kind' : CollectionKind}
    {rows others : List Value}
    (evaluated : session.evalIn site [] (stages.fixpoint .stepRelation).source =
      .ok (.collection kind rows))
    (evaluatedOld :
      session.evalIn site' [] (stages.fixpoint .accumulated).source =
      .ok (.collection kind' others)) (row : Value) : row ∈ rows ↔
      row ∈ others := by
  obtain ⟨_, base, _, _, _, hasBase, iterates, isValue⟩ :=
    stages.iterates keeps uniform undeclared .stepRelation started evaluated
  obtain ⟨_, _, _, _, _, hasBaseOld, iteratesOld, isValueOld⟩ :=
    stages.iterates keeps uniform undeclared .accumulated started' evaluatedOld
  cases isValue
  cases isValueOld
  obtain ⟨rfl, rfl⟩ := keeps.hasBase_unique uniform hasBase hasBaseOld
  exact keeps.mem_iff_mem (stages.isPlain keeps uniform) stages.nodup_goals
    hasBase rfl rfl iterates iteratesOld row

end CallStages

namespace Session

variable {session : Session} {site site' : Site} {pattern : Pattern}
  {source other : Expr}
  {steps : List Step} {kind kind' : CollectionKind} {rows others : List Value}
variable {row : Value}

/-- An output without functions is the same wherever the steps are taken. -/
theorem evalSteps_eq_of_free (uniform : session.Uniform)
    (started : Started site) (started' : Started site') {env : Env}
    (free : env.IsFunctionFree) {start : Value}
    (startFree : start.isFunctionFree = true)
    (rowFree : row.isFunctionFree = true) {output : Option Value}
    (evaluated : Expr.evalSteps session (session.call session.limits.maxDepth)
      env site start steps = .ok (some row))
    (evaluatedOther : Expr.evalSteps session
      (session.call session.limits.maxDepth) env site' start
      steps = .ok output) : output = some row := by
  have respects := uniform started started'
  have share : Env.Share (Expr.freeVarsSteps steps) env env :=
    ⟨fun _ _ => rfl, fun name _ => free name⟩
  have agree :=
    Expr.evalSteps_agree respects (call_agree respects session.limits.maxDepth)
    (Expr.instanceSteps_refl steps) Across.below (share.correspondOn _).means
    (.of_isFunctionFree startFree)
  rw [evaluated, evaluatedOther] at agree
  cases agree with
  | ok pair =>
      cases pair with
      | some pair => rw [pair.eq_of_isFunctionFree rowFree]

/-- A scan with all the rows of another one has all rows without functions that
follow from these. -/
theorem mem_collect_of_subset (uniform : session.Uniform)
    (started : Started site) (started' : Started site')
    (plain : ∀ kind rows, session.evalIn (0 :: site) [] source =
      .ok (.collection kind rows) → ∀ row ∈ rows, row.toExpr?.isSome = true)
    (subset : ∀ kind kind' rows others,
      session.evalIn (0 :: site) [] source = .ok (.collection kind rows) →
      session.evalIn (0 :: site') [] other = .ok (.collection kind' others) →
        rows ⊆ others)
    (evaluated :
      session.evalIn site [] (.collect ⟨[⟨pattern, some source⟩], steps⟩) =
      .ok (.collection kind rows))
    (evaluatedOther :
      session.evalIn site' [] (.collect ⟨[⟨pattern, some other⟩], steps⟩) =
      .ok (.collection kind' others)) (isFree : row.isFunctionFree = true)
    (member : row ∈ rows) : row ∈ others := by
  obtain ⟨found, collected, isValue⟩ := Outcome.bind_eq_ok_iff.mp evaluated
  obtain ⟨foundOther, collectedOther, isOther⟩ :=
    Outcome.bind_eq_ok_iff.mp evaluatedOther
  cases isValue
  cases isOther
  obtain ⟨sourced, evaluatedSource, _, every⟩ :=
    Expr.mem_collectScans_cons collected
  obtain ⟨sourcedOther, evaluatedSourceOther, each, _⟩ :=
    Expr.mem_collectScans_cons collectedOther
  obtain ⟨_, isSource⟩ := Generator.exists_evalIn_of_evalSource evaluatedSource
  obtain ⟨_, isSourceOther⟩ :=
    Generator.exists_evalIn_of_evalSource evaluatedSourceOther
  obtain ⟨index, scanned, inner, part, isScanned, binds, finished, inPart⟩ :=
    every row member
  have isRow := List.mem_of_getElem? isScanned
  have isPlain := plain _ _ isSource scanned isRow
  -- The same row is scanned there, though at another place.
  obtain ⟨place, isPlace⟩ :=
    List.mem_iff_getElem?.mp (subset _ _ _ _ isSource isSourceOther isRow)
  obtain ⟨partOther, finishedOther, included⟩ :=
    each place scanned inner isPlace binds
  obtain ⟨output, taken, isPart⟩ := Expr.collectScans_nil_eq_ok_iff.mp finished
  obtain ⟨outputOther, takenOther, isPartOther⟩ :=
    Expr.collectScans_nil_eq_ok_iff.mp finishedOther
  subst isPart
  subst isPartOther
  rw [Option.mem_toList] at inPart
  rw [inPart] at taken
  have same := evalSteps_eq_of_free uniform (started.cons _) (started'.cons _)
    (((Env.ExtendsPlainly.refl []).bind isPlain binds).isFunctionFree
      Env.isFunctionFree_nil)
    (Value.isFunctionFree_of_plain isPlain) isFree taken takenOther
  apply included
  rw [same]
  exact List.mem_cons_self

/-- Evaluations at two sites have the same rows without functions. -/
theorem mem_of_evalIn (uniform : session.Uniform) (started : Started site)
    (started' : Started site')
    (evaluated : session.evalIn site [] source = .ok (.collection kind rows))
    (evaluatedOther : session.evalIn site' [] source =
      .ok (.collection kind' others))
    (isFree : row.isFunctionFree = true) (member : row ∈ rows) :
    row ∈ others := by
  have share : Env.Share source.freeVars [] [] :=
    ⟨fun _ _ => rfl, fun name _ => Env.isFunctionFree_nil name⟩
  obtain ⟨value, isValue, pair⟩ :=
    exists_evalIn uniform started started' share evaluated
  cases isValue.symm.trans evaluatedOther
  cases pair with
  | collection _ pairs =>
      obtain ⟨other, isOther, same⟩ := exists_mem_left pairs.flip member
      exact same.eq_of_isFunctionFree isFree ▸ isOther

end Session

/-- No step scans found rows, or those that do scan them add nothing. -/
def Recursion.JoinsFreely (session : Session) (recursion : Recursion) : Prop :=
  (∀ case ∈ recursion.steps, recursion.scansFound case = false) ∨
    ((∀ kind, session.globals.lookup (Builtin.iterate kind).name = none) ∧
      ∃ side, recursion.KeepsEnd session side)

/-- The source of joins decides on no refusal, and it changes no rows if no step
scans found rows, or if all steps join base edges to paths or hand on the same
end of their paths. -/
theorem join_source_keeps_rows (program : Program) (settings : Settings)
    (expr : Expr) : (∃ refusal, ∀ source,
      (PredicateInverter.ofProgram program (settings.joining source)).plan
        expr = .error refusal) ∨
    ∃ stages : QueryStages program settings expr,
      (∀ source, (PredicateInverter.ofProgram program
        (settings.joining source)).plan expr = .ok (stages.plan source)) ∧
      ∀ limits session, Session.load program limits = .ok session →
        (∀ values, limits.extent = some values → ∀ value ∈ values,
          value.isFunctionFree = true) →
        stages.call.recursion.JoinsFreely session →
        ∀ first second kind kind' rows others,
          session.eval (Session.root first) (stages.plan .stepRelation) =
            .ok (.collection kind rows) →
          session.eval (Session.root second) (stages.plan .accumulated) =
            .ok (.collection kind' others) →
          ∀ row, row.isFunctionFree = true → (row ∈ rows ↔ row ∈ others) := by
  rcases PredicateInverter.plan_cases program settings expr with
    refused | ⟨stages, plans⟩
  · exact .inl refused
  refine .inr ⟨stages, plans, ?_⟩
  intro limits session loaded extent joins first second kind kind' rows others
    evaluated evaluatedOld row isFree
  have uniform : session.Uniform := Session.uniform_of_load extent loaded
  have started := Session.Started.root first
  have started' := Session.Started.root second
  rcases joins with kept | ⟨undeclared, side, keeps⟩
  · have samePlan : stages.plan .accumulated = stages.plan .stepRelation := by
      rw [QueryStages.plan, QueryStages.plan,
        stages.call.fixpoint_eq_fixpoint kept .accumulated]
    rw [samePlan] at evaluatedOld
    constructor
    · exact Session.mem_of_evalIn uniform started started' evaluated
        evaluatedOld isFree
    · exact Session.mem_of_evalIn uniform started' started evaluatedOld
        evaluated isFree
  · constructor
    · apply Session.mem_collect_of_subset uniform started started' _ _ evaluated
        evaluatedOld isFree
      · intro kind rows evaluatedRows
        exact stages.call.plain keeps uniform undeclared .stepRelation
          (started.cons 0) evaluatedRows
      · intro kind kind' rows others isRows isOthers row member
        exact (stages.call.mem_iff_mem keeps uniform undeclared (started.cons 0)
          (started'.cons 0) isRows isOthers row).mp member
    · apply Session.mem_collect_of_subset uniform started' started _ _
        evaluatedOld evaluated isFree
      · intro kind rows evaluatedRows
        exact stages.call.plain keeps uniform undeclared .accumulated
          (started'.cons 0) evaluatedRows
      · intro kind kind' rows others isRows isOthers row member
        exact (stages.call.mem_iff_mem keeps uniform undeclared (started.cons 0)
          (started'.cons 0) isOthers isRows row).mpr member

/-- The recursion that a call leads to. -/
def Program.recursion? (program : Program) (settings : Settings) (call : Expr)
    (goals : List Name) : Option Recursion := do
  let (predicate, argument) ← call.namedCall?
  match program.decl? predicate with
  | some (.function _ param body) =>
      let (shape, shaped) := (CallShape.ofCall param argument goals []).run
        (program.supplyFor param body call goals)
      let shape ← shape.toOption
      let (instantiated, substituted) :=
        (body.substitute shape.replacements).run shaped
      let (tree, _) :=
        (AnalysisTree.build program (Inversion.base program) [predicate]
        (.initial shape.goals []) instantiated).run substituted
      (Recursion.ofTree settings (Scope.initial shape.goals []).goals
        tree).toOption
  | _ => none

theorem CallStages.recursion?_eq {program : Program} {settings : Settings}
    {call : Expr} {goals : List Name}
    (stages : CallStages program settings call goals) :
    program.recursion? settings call goals = some stages.recursion := by
  simp only [Program.recursion?, stages.called, Option.bind_eq_bind,
    Option.bind_some, stages.decl, stages.shapes, Except.toOption,
    stages.substitutes, stages.builds, stages.reads]

/-- The recursion that the first call in the condition of a query leads to. -/
def Program.recursionOf? (program : Program) (settings : Settings) :
    Expr → Option Recursion
  | .collect ⟨[⟨pattern, none⟩], .filter condition :: _⟩ => do
      let call ← condition.conjuncts.find?
        (PredicateInverter.ofProgram program settings).isCall
      program.recursion? settings call pattern.vars
  | _ => none

theorem QueryStages.recursionOf?_eq {program : Program} {settings : Settings}
    {expr : Expr} (stages : QueryStages program settings expr) :
    program.recursionOf? settings expr = some stages.call.recursion := by
  have isQuery : program.recursionOf? settings expr =
    program.recursionOf? settings _ :=
    congrArg _ stages.query
  rw [isQuery, Program.recursionOf?, stages.chosen]
  exact stages.call.recursion?_eq

namespace PathPredicate

/-- Paths over some relations, the first of which has the edges, and with some
recursive arms. -/
def pathsOver (relations : List (Name × List Edge)) (arms : List Expr) :
    Program :=
  ⟨(relations.map fun relation =>
    Decl.val relation.1 none (some (Edge.literals relation.2))) ++
    [.function "path" param
      ((arms.map fun arm =>
        Expr.existence ⟨[⟨.var "z", none⟩], [.filter arm]⟩).foldl .orElse
        baseArm)]⟩

def pairs (first second relation : Name) : Scan :=
  ⟨.tuple [.var first, .var second], some (.var relation)⟩

/-- The paths of a fixpoint with some steps. -/
def planOver (steps : List Query) : Expr :=
  .collect ⟨[⟨param, some (.apply (.apply (.var "List.iterate") (.var "b"))
    (.lambda (.tuple [.var "old", .var "new"])
      (Recursion.concatenated (steps.map .collect))))⟩], []⟩

/-- A query has these rows for a source of joins. -/
def Yields (program : Program) (source : JoinSource) (plan : Expr)
    (rows : List Edge) : Prop :=
  ((PredicateInverter.ofProgram program (Settings.joining {} source)).plan
    query).toOption = some plan ∧
    program.evaluate {} (Session.root 0) [] plan = .ok (Edge.relation rows)

/-- Paths that start with an edge, or with an edge of another relation that
leads down. -/
def detours : Program :=
  pathsOver [("b", [(1, 2), (2, 3), (3, 4)]), ("c", [(5, 1)])]
    [.andAlso (membership "x" "z" "b") (call "z" "y"),
      .andAlso (.andAlso (membership "x" "z" "c") (call "z" "y"))
        (.binary .lt (.var "z") (.var "x"))]

def detourPlan (source : Name) : Expr :=
  planOver
    [.filtered [pairs "x" "z" source, pairs "z_1" "y" "new"]
      [.equals (.var "z") (.var "z_1")] (.row ["x", "y"]),
    .filtered [pairs "x" "z" "c", pairs "z_2" "y" "new"]
      [.equals (.var "z") (.var "z_2"), .binary .lt (.var "z") (.var "x")]
        (.row ["x", "y"])]

def detourRecursion : Recursion where
  goals := ["x", "y"]
  base := ⟨Recursion.edges "x" "y", []⟩
  steps :=
    [⟨[.scan (Recursion.edges "x" "z") [],
      .recursive "path" (.tuple [.var "z", .var "y"])], ["z"]⟩,
      ⟨[.scan ⟨.tuple [.var "x", .var "z"], .var "c", .list, .finite⟩ [],
        .recursive "path" (.tuple [.var "z", .var "y"]),
        .filter (.binary .lt (.var "z") (.var "x"))], ["z"]⟩]

/-- Edges of the other relation stand in front of paths, too, and hand on the
ends of these. -/
theorem keepsEnd_detours {session : Session}
    (edges : session.lookup [] "b" =
      .ok (Edge.relation [(1, 2), (2, 3), (3, 4)]))
    (others : session.lookup [] "c" = .ok (Edge.relation [(5, 1)])) :
    detourRecursion.KeepsEnd session .target := by
  refine ⟨by decide, by decide, ?_, by decide, ?_, ?_⟩
  · intro case isStep generator residual isScan
    have isSource : generator.source = .var "b" ∨
      generator.source = .var "c" := by
      simp only [detourRecursion, List.mem_cons, List.not_mem_nil,
        or_false] at isStep
      rcases isStep with rfl | rfl
      · simp only [List.mem_cons, StepClause.scan.injEq, List.not_mem_nil,
          or_false, reduceCtorEq] at isScan
        exact .inl (by rw [isScan.1]; rfl)
      · simp only [List.mem_cons, StepClause.scan.injEq, List.not_mem_nil,
          or_false, reduceCtorEq] at isScan
        exact .inr (by rw [isScan.1])
    rcases isSource with isEdges | isOthers
    · rw [isEdges]
      exact Session.yieldsPlainly_var edges (by decide)
    · rw [isOthers]
      exact Session.yieldsPlainly_var others (by decide)
  · intro case isStep
    simp only [detourRecursion, List.mem_cons, List.not_mem_nil,
      or_false] at isStep
    rcases isStep with rfl | rfl
    · exact .inl (by decide)
    · exact .inr ⟨"x", "y", .var "z", rfl, rfl, by decide, by decide⟩
  · exact ⟨_, List.mem_cons_self, by decide, Recursion.edges "x" "z",
      "x", "z", "y", rfl, by decide, by decide, rfl, "path", .inl rfl⟩

/-- Found rows are scanned in another order, and lead to the same paths. -/
theorem join_source_keeps_rows_detours :
    let rows : List Edge :=
      [(1, 2), (2, 3), (3, 4), (1, 3), (2, 4), (5, 2), (1, 4), (5, 3), (5, 4)]
    let others : List Edge :=
      [(1, 2), (2, 3), (3, 4), (1, 3), (2, 4), (5, 2), (1, 4), (5, 4), (5, 3)]
    Yields detours .stepRelation (detourPlan "b") rows ∧
      Yields detours .accumulated (detourPlan "old") others ∧
      ∀ row, row.isFunctionFree = true →
        (row ∈ rows.map Edge.value ↔ row ∈ others.map Edge.value) := by
  intro rows others
  have yields : Yields detours .stepRelation (detourPlan "b") rows :=
    ⟨by decide +kernel, rfl⟩
  have yieldsOld : Yields detours .accumulated (detourPlan "old") others :=
    ⟨by decide +kernel, rfl⟩
  refine ⟨yields, yieldsOld, ?_⟩
  rcases join_source_keeps_rows detours {} query with
    ⟨refusal, refused⟩ | ⟨stages, plans, keeps⟩
  · have planned := yields.1
    rw [refused] at planned
    cases planned
  have isPlan : stages.plan .stepRelation = detourPlan "b" := by
    have planned := yields.1
    rw [plans] at planned
    exact Option.some.inj planned
  have isPlanOld : stages.plan .accumulated = detourPlan "old" := by
    have planned := yieldsOld.1
    rw [plans] at planned
    exact Option.some.inj planned
  have isRecursion : detours.recursionOf? {} query = some detourRecursion := by
    decide +kernel
  rw [stages.recursionOf?_eq] at isRecursion
  obtain ⟨session, loaded, evaluated⟩ := Outcome.bind_eq_ok_iff.mp yields.2
  obtain ⟨sameSession, loadedOld, evaluatedOld⟩ :=
    Outcome.bind_eq_ok_iff.mp yieldsOld.2
  cases loaded.symm.trans loadedOld
  rw [← isPlan] at evaluated
  rw [← isPlanOld] at evaluatedOld
  apply keeps {} session loaded _ _ 0 0 .list .list _ _ evaluated evaluatedOld
  · intro values absurdity
    cases absurdity
  · rw [Option.some.inj isRecursion]
    have edges :
      (Session.load detours {} >>= fun session => session.lookup [] "b") =
        .ok (Edge.relation [(1, 2), (2, 3), (3, 4)]) := rfl
    have downward :
      (Session.load detours {} >>= fun session => session.lookup [] "c") =
        .ok (Edge.relation [(5, 1)]) := rfl
    rw [loaded, Outcome.ok_bind] at edges downward
    refine .inr ⟨?_, .target, keepsEnd_detours edges downward⟩
    intro kind
    apply Session.lookup_of_load loaded
    cases kind <;> decide

/-- Paths that start with an edge, or that end with one of another relation. -/
def crossing : Program :=
  pathsOver [("b", [(1, 2), (3, 5), (5, 4)]), ("c", [(2, 3)])]
    [.andAlso (membership "x" "z" "b") (call "z" "y"),
      .andAlso (call "x" "z") (membership "z" "y" "c")]

def crossingPlan (source : Name) : Expr :=
  planOver
    [.filtered [pairs "x" "z" source, pairs "z_2" "y" "new"]
      [.equals (.var "z") (.var "z_2")] (.row ["x", "y"]),
    .filtered [pairs "x" "z" "new", pairs "z_1" "y" "c"]
      [.equals (.var "z_1") (.var "z")] (.row ["x", "y"])]

/-- Paths that end with an edge of the other relation are no edges, and are
joined to paths nevertheless if found rows are scanned. -/
theorem join_source_adds_path :
    let rows : List Edge := [(1, 2), (3, 5), (5, 4), (3, 4), (1, 3)]
    Yields crossing .stepRelation (crossingPlan "b") rows ∧
      Yields crossing .accumulated (crossingPlan "old") (rows ++ [(1, 4)]) := by
  intro rows
  exact ⟨⟨by decide +kernel, rfl⟩, ⟨by decide +kernel, rfl⟩⟩

end PathPredicate

end RecursiveQuery
