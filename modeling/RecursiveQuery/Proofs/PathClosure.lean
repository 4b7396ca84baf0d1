import RecursiveQuery.Proofs.Join
import RecursiveQuery.Proofs.Load
import RecursiveQuery.Proofs.PathFixpoint
import RecursiveQuery.Proofs.PathPlan

/-!
# Closures of path predicates

The plan of a path predicate evaluates to the pairs that the predicate connects.
-/

namespace RecursiveQuery

namespace PathPredicate

variable {predicate : PathPredicate} {program : Program} {limits : Limits}
  {session : Session}

theorem lookup_edges {name : Name} {edges : List Edge}
    (loaded : Session.load program limits = .ok session)
    (declares : program.DeclaresEdges name edges) :
    session.globals.lookup name = some (Edge.relation edges) := by
  obtain ⟨type, declared, notBag⟩ := declares
  obtain ⟨earlier, site, result, _, evaluated, found⟩ :=
    Session.settles_of_load loaded declared
  rw [Session.eval, Session.evalIn, Edge.eval_literals] at evaluated
  cases evaluated
  rw [found]
  cases type with
  | none => rfl
  | some type =>
      have kept := notBag type rfl
      cases type with
      | bag element => cases kept
      | _ => rfl

/-- A session that knows the relations of a path predicate and hides no function
of its plan. -/
structure KnownTo (predicate : PathPredicate) (session : Session) : Prop where
  base : session.globals.lookup "b" = some (Edge.relation predicate.base)
  step : session.globals.lookup predicate.stepName =
    some (Edge.relation predicate.stepEdges)
  iterate : session.globals.lookup "List.iterate" = none

theorem DeclaredIn.knownTo (declared : predicate.DeclaredIn program)
    (loaded : Session.load program limits = .ok session) :
    predicate.KnownTo session where
  base := lookup_edges loaded declared.base
  step := lookup_edges loaded declared.step
  iterate := Session.lookup_of_load loaded declared.iterate

/-- The environment of a step. -/
def stepEnv (found increment : Name) (foundRows incrementRows : List Value) :
    Env :=
  [(increment, .collection .list incrementRows),
    (found, .collection .list foundRows)]

section Step

variable {source : Expr} {middle other found increment : Name} {call : Caller}
  {foundRows incrementRows : List Value}

theorem PlanNames.not_declared
    (names : PlanNames program middle other found increment) {name : Name}
    {decl : Decl} (declared : program.decl? name = some decl) :
    name ∉ [middle, other, found, increment] := by
  intro member
  have undeclared := (names.intermediate name member).undeclared
  rw [declared] at undeclared
  cases undeclared

theorem PlanNames.nodup_scans
    (names : PlanNames program middle other found increment) :
    ["x", middle, other, "y"].Nodup := by
  have notStart := fun name member => (names.intermediate name member).ne
    (show "x" ∈ knownNames by decide)
  have notEnd := fun name member => (names.intermediate name member).ne
    (show "y" ∈ knownNames by decide)
  have distinct := names.distinct
  simp only [List.nodup_cons, List.mem_cons, List.not_mem_nil, or_false,
    not_or] at distinct
  have middleStart := notStart middle (by simp)
  have otherStart := notStart other (by simp)
  have middleEnd := notEnd middle (by simp)
  have otherEnd := notEnd other (by simp)
  simp [middleStart.symm, otherStart.symm, middleEnd, otherEnd, distinct.1.1]

theorem stepName_ne_start (predicate : PathPredicate) :
    predicate.stepName ≠ "x" := by
  rcases predicate.stepName_mem with name | name <;> rw [name] <;> decide

theorem stepEdges_eq_base (same : predicate.stepName = "b") :
    predicate.stepEdges = predicate.base := by
  rw [stepName] at same
  rw [stepEdges]
  cases step : predicate.step with
  | none => rfl
  | some edges =>
      simp [step] at same

variable (known : predicate.KnownTo session)
  (declared : predicate.DeclaredIn program)
  (names : PlanNames program middle other found increment)
  (stepSource : predicate.StepSource found source)

include known declared names stepSource

/-- The source of a step evaluates to hops, in the left-linear form also behind
the variables of the path. -/
theorem exists_hops :
    ∃ hops, predicate.Hops foundRows hops ∧
      (∀ site, source.eval session call
        (stepEnv found increment foundRows incrementRows) site =
        .ok (.collection .list hops)) ∧
      (predicate.linearity = .left →
        ∀ start joint site, source.eval session call
        ((middle, joint) :: ("x", start) ::
          stepEnv found increment foundRows incrementRows)
        site = .ok (.collection .list hops)) := by
  obtain ⟨type, declaration, _⟩ := declared.step
  have undeclared := names.not_declared declaration
  simp only [List.mem_cons, List.not_mem_nil, or_false, not_or] at undeclared
  obtain ⟨notMiddle, _, notFound, notIncrement⟩ := undeclared
  cases stepSource with
  | relation =>
      have stepEval :
        session.lookup (stepEnv found increment foundRows incrementRows)
          predicate.stepName = .ok (Edge.relation predicate.stepEdges) := by
        rw [stepEnv, Session.lookup_cons_ne notIncrement,
          Session.lookup_cons_ne notFound]
        simp only [Session.lookup, List.lookup_nil, known.step]
        rfl
      refine ⟨_, .relation, fun site => stepEval, ?_⟩
      intro _ start joint site
      rw [Expr.eval, Session.lookup_cons_ne notMiddle,
        Session.lookup_cons_ne predicate.stepName_ne_start]
      exact stepEval
  | accumulated linear same =>
      have distinct := names.distinct
      simp only [List.nodup_cons, List.mem_cons, List.not_mem_nil, or_false,
        not_or] at distinct
      refine ⟨foundRows, .accumulated linear (stepEdges_eq_base same), ?_, ?_⟩
      · intro site
        rw [Expr.eval, stepEnv, Session.lookup_cons_ne distinct.2.2.1,
          Session.lookup_cons_self]
      · intro left
        rw [linear] at left
        cases left

/-- The body of a step adds hops to the increment. -/
theorem eval_stepBody (foundEdges : Edge.Rows foundRows)
    (incrementEdges : Edge.Rows incrementRows) (site : Site) :
    ∃ hops kind rows, predicate.Hops foundRows hops ∧
      (predicate.stepBody source middle other increment).eval session call
        (stepEnv found increment foundRows incrementRows) site =
          .ok (.collection kind rows) ∧
      ∀ row, row ∈ rows ↔ predicate.Adds hops incrementRows row := by
  obtain ⟨hops, hop, sourceEval, sourceEvalBehind⟩ :=
    @exists_hops _ _ _ _ _ _ _ _ call foundRows incrementRows known declared
      names stepSource
  have scans := names.nodup_scans
  have distinct := names.distinct
  simp only [List.nodup_cons, List.mem_cons, List.not_mem_nil, or_false,
    not_or] at distinct
  simp only [stepBody, Adds, stepScans, stepCondition]
  cases linear : predicate.linearity with
  | right =>
      have incrementStart : increment ≠ "x" :=
        (names.intermediate increment (by simp)).ne (by decide)
      have incrementEval : ∀ start joint site,
        (Expr.var increment).eval session call
          ((middle, joint) :: ("x", start) ::
            stepEnv found increment foundRows incrementRows)
          site = .ok (.collection .list incrementRows) := by
        intro start joint site
        rw [Expr.eval, Session.lookup_cons_ne (Ne.symm distinct.1.2.2),
          Session.lookup_cons_ne incrementStart, stepEnv,
          Session.lookup_cons_self]
      have conditionEval : ∀ start joint copy target site,
          (Expr.equals (.var middle) (.var other)).eval session call
            (("y", target) :: (other, copy) :: (middle, joint) ::
              ("x", start) ::
              stepEnv found increment foundRows incrementRows) site =
                .ok (.bool (joint.same copy)) := by
        intro start joint copy target site
        exact Expr.eval_equals (Expr.eval_joint scans) (Expr.eval_copy scans)
      obtain ⟨kind, rows, evaluated, members⟩ :=
        Expr.eval_join sourceEval incrementEval conditionEval scans site
      refine ⟨hops, kind, rows, hop, evaluated, ?_⟩
      intro row
      rw [members, Edge.join_iff (hop.rows foundEdges) incrementEdges]
      intro joint copy
      simp [Value.same]
  | left =>
      have incrementEval : ∀ site, (Expr.var increment).eval session call
          (stepEnv found increment foundRows incrementRows) site =
            .ok (.collection .list incrementRows) := by
        intro site
        rw [Expr.eval, stepEnv, Session.lookup_cons_self]
      have conditionEval : ∀ start joint copy target site,
          (Expr.equals (.var other) (.var middle)).eval session call
            (("y", target) :: (other, copy) :: (middle, joint) ::
              ("x", start) ::
              stepEnv found increment foundRows incrementRows) site =
                .ok (.bool (copy.same joint)) := by
        intro start joint copy target site
        exact Expr.eval_equals (Expr.eval_copy scans) (Expr.eval_joint scans)
      obtain ⟨kind, rows, evaluated, members⟩ :=
        Expr.eval_join incrementEval (sourceEvalBehind linear) conditionEval
          scans site
      refine ⟨hops, kind, rows, hop, evaluated, ?_⟩
      intro row
      rw [members, Edge.join_iff incrementEdges (hop.rows foundEdges)]
      intro joint copy
      simp only [Value.same, beq_iff_eq]
      exact eq_comm

end Step

/-- The step function of a plan. -/
def planStep (predicate : PathPredicate) (call : Caller) (source : Expr)
    (middle other found increment : Name) (site : Site) : RowStep :=
  fun round foundRows incrementRows => do
    match ← call
        ⟨1 :: site, .tuple [.var found, .var increment],
          predicate.stepBody source middle other increment, []⟩
          (round :: 2 :: site)
        (.tuple [.collection .list foundRows,
          .collection .list incrementRows]) with
    | .collection _ rows => return rows
    | other => .mismatch .collection other

section Plan

variable {source : Expr} {middle other found increment : Name}

variable (known : predicate.KnownTo session)
  (declared : predicate.DeclaredIn program)
  (names : PlanNames program middle other found increment)
  (stepSource : predicate.StepSource found source)

include known

/-- The source of a plan evaluates to the fixpoint of its step function. -/
theorem eval_planOf {call : Caller} {site : Site} :
    (predicate.planOf source middle other found increment).source.eval session
    call [] site = (do
        let rows ← fixpoint
          (predicate.planStep call source middle other found increment site)
          session.limits.rounds (predicate.base.map Edge.value)
        return .collection .list rows) := by
  have iterate : session.lookup [] "List.iterate" =
    .ok (.builtin (.iterate .list)) := by
    simp only [Session.lookup, List.lookup_nil, known.iterate]
    rfl
  have base : session.lookup [] "b" = .ok (Edge.relation predicate.base) := by
    simp only [Session.lookup, List.lookup_nil, known.base]
    rfl
  simp only [planOf, Expr.eval, iterate, base, Outcome.ok_bind]
  rfl

include declared names stepSource

theorem addsHops_planStep (left : Nat) (site : Site) :
    predicate.AddsHops
      (predicate.planStep (session.call (left + 1)) source middle other found
        increment site) := by
  intro round foundRows incrementRows foundEdges incrementEdges
  obtain ⟨hops, kind, rows, hop, evaluated, members⟩ :=
    @eval_stepBody _ _ _ _ _ _ _ _ (session.call left) _ _ known declared names
      stepSource foundEdges incrementEdges (round :: 2 :: site)
  refine ⟨hops, rows, hop, ?_, members⟩
  change ((predicate.stepBody source middle other increment).eval session
    (session.call left)
    (stepEnv found increment foundRows incrementRows)
    (round :: 2 :: site) >>= _) = _
  rw [evaluated]
  rfl

/-- A plan evaluates to a list of all connections.  It calls its step unless
there is no base row. -/
theorem eval_plan
    (depth : predicate.base = [] ∨ 0 < session.limits.maxDepth)
    (enough : predicate.pairBound < session.limits.rounds) (site : Site) :
    ∃ edges : List Edge,
      session.eval site (.collect
        ⟨[(predicate.planOf source middle other found increment).scan], []⟩) =
          .ok (Edge.relation edges) ∧
      edges.Nodup ∧
      ∀ start target, (start, target) ∈ edges ↔
        predicate.Connects start target := by
  obtain ⟨edges, reached, nodup, members⟩ : ∃ edges : List Edge,
      fixpoint (predicate.planStep (session.call session.limits.maxDepth) source
        middle other
        found increment (0 :: site)) session.limits.rounds
        (predicate.base.map Edge.value) =
          .ok (edges.map Edge.value) ∧ edges.Nodup ∧
      ∀ start target, (start, target) ∈ edges ↔
        predicate.Connects start target := by
    rcases depth with empty | positive
    · refine ⟨[], ?_, List.nodup_nil, ?_⟩
      · rw [empty]
        exact saturate_nil _ _ _ _
      · intro start target
        simp [not_connects_of_base_nil empty]
    · obtain ⟨left, depth⟩ :=
        Nat.exists_eq_succ_of_ne_zero (Nat.ne_of_gt positive)
      rw [depth]
      exact exists_fixpoint_eq_connections
        (addsHops_planStep known declared names stepSource left (0 :: site))
        enough
  refine ⟨edges, ?_, nodup, members⟩
  refine Expr.eval_collect_scan ?_ ?_
  · rw [eval_planOf known, reached]
    rfl
  · intro row member
    obtain ⟨⟨start, target⟩, _, rfl⟩ := List.mem_map.mp member
    exact ⟨_, rfl⟩

end Plan

theorem exists_load (only : program.DeclaresOnlyEdges) (limits : Limits) :
    ∃ session, Session.load program limits = .ok session := by
  refine Session.exists_runDecls ?_
  intro name type value member earlier site
  obtain ⟨edges, rfl⟩ := only name type value member
  exact ⟨_, Edge.eval_literals edges site⟩

/-- The query of all paths is planned, and its plan evaluates to a list that has
every connection exactly once, however cyclic the relations are. -/
theorem plan_evaluates_to_connections {settings : Settings}
    (declared : predicate.DeclaredIn program)
    (enabled : settings.enabled = true) (allowed : 1 ≤ settings.maxStepCases) :
    ∃ plan, (PredicateInverter.ofProgram program settings).plan query =
      .ok plan ∧ ∀ limits : Limits, 0 < limits.maxDepth →
        predicate.pairBound < limits.rounds →
        (program.DeclaresOnlyEdges →
          ∃ session, Session.load program limits = .ok session) ∧
        ∀ session, Session.load program limits = .ok session → ∀ site,
          ∃ edges : List Edge, session.eval site plan =
            .ok (Edge.relation edges) ∧ edges.Nodup ∧
            ∀ start target, (start, target) ∈ edges ↔
              predicate.Connects start target := by
  obtain ⟨source, middle, other, found, increment, planned, stepSource,
    names⟩ :=
    predicate.exists_plan declared enabled allowed
  refine ⟨_, planned, ?_⟩
  intro limits depth enough
  refine ⟨fun only => exists_load only limits, ?_⟩
  intro session loaded site
  have sameLimits := Session.limits_of_load loaded
  rw [← sameLimits] at depth enough
  exact eval_plan (declared.knownTo loaded) declared names stepSource
    (.inr depth) enough site

/-- Two nodes on a cycle and a loop behind them. -/
def cycle : PathPredicate :=
  ⟨[(1, 2), (2, 1)], some [(2, 2), (1, 2), (1, 2)], .left, false⟩

theorem plan_evaluates_to_connections_cycle :
    ∃ plan session edges,
      (PredicateInverter.ofProgram ⟨cycle.decls⟩
        { joinSource := .accumulated }).plan query = .ok plan ∧
      Session.load ⟨cycle.decls⟩ {} = .ok session ∧
      session.eval (Session.root 0) plan = .ok (Edge.relation edges) ∧
      edges.Nodup ∧
      ∀ start target, (start, target) ∈ edges ↔
        cycle.Connects start target := by
  obtain ⟨plan, planned, evaluates⟩ :=
    @plan_evaluates_to_connections cycle ⟨cycle.decls⟩
    { joinSource := .accumulated } cycle.declaredIn_decls rfl (by decide)
  obtain ⟨loads, evaluates⟩ := evaluates {} (by decide) (by decide)
  obtain ⟨session, loaded⟩ := loads cycle.declaresOnlyEdges_decls
  obtain ⟨edges, evaluated, nodup, members⟩ :=
    evaluates session loaded (Session.root 0)
  exact ⟨plan, session, edges, planned, loaded, evaluated, nodup, members⟩

end PathPredicate

end RecursiveQuery
