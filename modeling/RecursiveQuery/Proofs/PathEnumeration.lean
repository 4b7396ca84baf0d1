import RecursiveQuery.Proofs.PathClosure

/-!
# Enumeration of paths

Enumerate-and-filter evaluation of the query of all paths.  A call of the
predicate that returns at all decides whether its argument is connected: an
answer `false` has looked at every intermediate value of the extent.
-/

namespace RecursiveQuery

/-- An evaluation that returns nothing but whether a proposition holds, if it
returns. -/
def Decides (outcome : Outcome Value) (holds : Prop) : Prop :=
  ∀ result, outcome = .ok result → ∃ flag, result = .bool flag ∧
    (flag = true ↔ holds)

namespace Decides

variable {session : Session} {call : Caller} {env : Env} {site : Site}
  {left right : Expr}
  {leftHolds rightHolds : Prop}

theorem returned {outcome : Outcome Value} {holds same : Prop}
    (decides : Decides outcome holds) (iff : holds ↔ same) :
    Decides (do return .bool (← (← outcome).asBool)) same := by
  intro result evaluated
  obtain ⟨value, reached, evaluated⟩ := Outcome.bind_eq_ok_iff.mp evaluated
  obtain ⟨flag, rfl, flagIff⟩ := decides value reached
  cases evaluated
  exact ⟨flag, rfl, flagIff.trans iff⟩

section Connectives

variable (leftDecides :
  Decides (left.eval session call env (0 :: site)) leftHolds)
  (rightDecides : Decides (right.eval session call env (1 :: site)) rightHolds)

include leftDecides rightDecides

theorem orElse : Decides ((Expr.orElse left right).eval session call env site)
    (leftHolds ∨ rightHolds) := by
  intro result evaluated
  rw [Expr.eval, Outcome.bind_eq_ok_iff] at evaluated
  obtain ⟨leftResult, leftEvaluated, evaluated⟩ := evaluated
  obtain ⟨leftFlag, rfl, leftIff⟩ := leftDecides leftResult leftEvaluated
  cases leftFlag with
  | true =>
      cases evaluated
      exact ⟨true, rfl, by simpa using .inl (leftIff.mp rfl)⟩
  | false =>
      have leftFalse : ¬ leftHolds := fun holds => nomatch leftIff.mpr holds
      exact rightDecides.returned (or_iff_right leftFalse).symm result evaluated

theorem andAlso : Decides ((Expr.andAlso left right).eval session call env site)
    (leftHolds ∧ rightHolds) := by
  intro result evaluated
  rw [Expr.eval, Outcome.bind_eq_ok_iff] at evaluated
  obtain ⟨leftResult, leftEvaluated, evaluated⟩ := evaluated
  obtain ⟨leftFlag, rfl, leftIff⟩ := leftDecides leftResult leftEvaluated
  cases leftFlag with
  | false =>
      cases evaluated
      refine ⟨false, rfl, ?_⟩
      constructor
      · intro absurdity
        cases absurdity
      · intro both
        cases leftIff.mpr both.1
  | true =>
      exact rightDecides.returned (and_iff_right (leftIff.mp rfl)).symm result
        evaluated

end Connectives

theorem evalSteps_filter {condition : Expr} {holds : Prop} {output : Value}
    {result : Option Value}
    (decides : Decides (condition.eval session call env (0 :: site)) holds)
    (evaluated :
      Expr.evalSteps session call env site output [.filter condition] =
      .ok result) : (holds ∧ result = some output) ∨
      (¬ holds ∧ result = none) := by
  rw [Expr.evalSteps, Outcome.bind_eq_ok_iff] at evaluated
  obtain ⟨passed, conditionEvaluated, evaluated⟩ := evaluated
  obtain ⟨flag, rfl, flagIff⟩ := decides passed conditionEvaluated
  cases flag with
  | true =>
      cases evaluated
      exact .inl ⟨flagIff.mp rfl, rfl⟩
  | false =>
      cases evaluated
      refine .inr ⟨?_, rfl⟩
      intro holding
      cases flagIff.mpr holding

/-- An `exists` over the extent looks at its values until one passes. -/
theorem existence {name : Name} {condition : Expr} {extent : List Value}
    {holds : Value → Prop} (limited : session.limits.extent = some extent)
    (decides : ∀ value site,
      Decides (condition.eval session call ((name, value) :: env) site)
        (holds value)) :
    Decides ((Expr.existence ⟨[⟨.var name, none⟩], [.filter condition]⟩).eval
      session call env site) (∃ value ∈ extent, holds value) := by
  intro result evaluated
  have sourced : Expr.evalSource session call env (0 :: site) (.var name) none =
      .ok ⟨.list, extent⟩ := by
    simp only [Expr.evalSource, Pattern.extentRows, limited]
    rfl
  rw [Expr.eval, Outcome.bind_eq_ok_iff] at evaluated
  obtain ⟨flag, searched, evaluated⟩ := evaluated
  cases evaluated
  rw [Expr.existsScans, sourced, Outcome.ok_bind] at searched
  refine ⟨flag, rfl, ?_⟩
  -- what the search learns from a single value
  have tested : ∀ index value inner found,
      (Pattern.var name).bind value env = some inner →
      Expr.existsScans session call
        (fun env site scanned =>
          Expr.evalSteps session call env site (.ofScanned scanned)
            [.filter condition])
        inner ((index + 1) :: site) ([] ++ [value]) [] = .ok found →
      (found = true ↔ holds value) := by
    intro index value inner found binds done
    cases binds
    rw [Expr.existsScans, Outcome.bind_eq_ok_iff] at done
    obtain ⟨output, stepped, done⟩ := done
    cases done
    rcases evalSteps_filter (decides value _) stepped with
      ⟨holding, rfl⟩ | ⟨failing, rfl⟩
    · simpa using holding
    · simpa using failing
  cases flag with
  | true =>
      obtain ⟨⟨index, value, inner⟩, member, done⟩ :=
        Outcome.exists_of_anyM_eq_true searched
      obtain ⟨found, binds⟩ := Pattern.mem_matching_iff.mp member
      have holding := (tested index value inner true binds done).mp rfl
      exact ⟨fun _ => ⟨value, List.mem_of_getElem? found, holding⟩,
        fun _ => rfl⟩
  | false =>
      constructor
      · intro absurdity
        cases absurdity
      · rintro ⟨value, member, holding⟩
        obtain ⟨index, found⟩ := List.getElem?_of_mem member
        have done := Outcome.forall_of_anyM_eq_false searched
          (index, value, (name, value) :: env)
          (Pattern.mem_matching_iff.mpr ⟨found, rfl⟩)
        exact (tested index value _ false rfl done).mpr holding

end Decides

namespace PathPredicate

variable {predicate : PathPredicate} {program : Program} {limits : Limits}
  {session : Session}
  {call : Caller} {env : Env} {site : Site}
variable {edges : List Edge} {first second : Value}

/-- The pair of two values is connected. -/
def ConnectsValues (predicate : PathPredicate) (first second : Value) : Prop :=
  ∃ start target, first = .int start ∧ second = .int target ∧
    predicate.Connects start target

theorem decides_membership {first second relation : Name} {left right : Value}
    (firstEval : session.lookup env first = .ok left)
    (secondEval : session.lookup env second = .ok right)
    (relationEval : session.lookup env relation = .ok (Edge.relation edges)) :
    Decides ((membership first second relation).eval session call env site)
      (∃ edge ∈ edges, Value.tuple [left, right] = edge.value) := by
  intro result evaluated
  have computed :
    (membership first second relation).eval session call env site =
      .ok (.bool ((edges.map Edge.value).any fun candidate =>
        candidate.same (.tuple [left, right]))) := by
    simp only [membership, Expr.eval, Expr.evalList, firstEval, secondEval,
      relationEval, Outcome.ok_bind]
    rfl
  rw [computed] at evaluated
  cases evaluated
  refine ⟨_, rfl, ?_⟩
  rw [known_any_iff]
  constructor
  · rintro ⟨candidate, member, alike⟩
    obtain ⟨edge, inEdges, rfl⟩ := List.mem_map.mp member
    exact ⟨edge, inEdges, Edge.alike_value_iff.mp alike⟩
  · rintro ⟨edge, inEdges, equality⟩
    exact ⟨edge.value, List.mem_map.mpr ⟨edge, inEdges, rfl⟩,
      Edge.alike_value_iff.mpr equality⟩

/-- The closure of a path predicate. -/
def closure (predicate : PathPredicate) (site : Site) : Closure :=
  ⟨site, param, predicate.body, []⟩

theorem eval_call {first second : Name} {left right : Value} {target : Closure}
    (firstEval : session.lookup env first = .ok left)
    (secondEval : session.lookup env second = .ok right)
    (pathEval : session.lookup env "path" = .ok (.closure target)) :
    (PathPredicate.call first second).eval session call env site =
      call target (2 :: site) (.tuple [left, right]) := by
  simp only [PathPredicate.call, Expr.eval, Expr.evalList, firstEval,
    secondEval, pathEval, Outcome.ok_bind]
  rfl

/-- The condition of the recursive arm for an intermediate value. -/
def StepsOver (predicate : PathPredicate) (first middle second : Value) :
    Prop :=
  match predicate.linearity with
  | .right =>
      (∃ edge ∈ predicate.stepEdges, Value.tuple [first, middle] = edge.value) ∧
      predicate.ConnectsValues middle second
  | .left => predicate.ConnectsValues first middle ∧
      ∃ edge ∈ predicate.stepEdges, Value.tuple [middle, second] = edge.value

/-- An extent that has all integers of the relations. -/
def CoveredBy (predicate : PathPredicate) (extent : List Value) : Prop :=
  ∀ edge ∈ predicate.base ++ predicate.stepEdges,
    Value.int edge.1 ∈ extent ∧ Value.int edge.2 ∈ extent

theorem mem_edges_iff {start target : Int64} :
    (∃ edge ∈ edges, Value.tuple [.int start, .int target] = edge.value) ↔
      (start, target) ∈ edges := by
  constructor
  · rintro ⟨⟨otherStart, otherTarget⟩, member, equality⟩
    cases equality
    exact member
  · intro member
    exact ⟨(start, target), member, rfl⟩

theorem exists_int_of_mem_edges
    (member : ∃ edge ∈ edges, Value.tuple [first, second] = edge.value) :
    ∃ start target, first = .int start ∧ second = .int target ∧
      (start, target) ∈ edges := by
  obtain ⟨⟨start, target⟩, inEdges, equality⟩ := member
  cases equality
  exact ⟨start, target, rfl, rfl, inEdges⟩

/-- A connection is a base row or a step and a connection. -/
theorem connectsValues_iff {extent : List Value}
    (covered : predicate.CoveredBy extent) :
    predicate.ConnectsValues first second ↔
      (∃ edge ∈ predicate.base, Value.tuple [first, second] = edge.value) ∨
        ∃ middle ∈ extent, predicate.StepsOver first middle second := by
  constructor
  · rintro ⟨start, target, rfl, rfl, connection⟩
    rw [mem_edges_iff]
    simp only [Connects, StepsOver] at connection ⊢
    cases linear : predicate.linearity with
    | right =>
        simp only [linear] at connection
        obtain ⟨last, steps, member⟩ := connection
        rcases Relation.ReflTransGen.cases_head steps with
          rfl | ⟨joint, step, rest⟩
        · exact .inl member
        · have inExtent :=
            (covered (start, joint) (List.mem_append_right _ step)).2
          refine .inr ⟨.int joint, inExtent, mem_edges_iff.mpr step, joint,
            target, rfl, rfl, ?_⟩
          rw [Connects, linear]
          exact ⟨last, rest, member⟩
    | left =>
        simp only [linear] at connection
        obtain ⟨last, member, steps⟩ := connection
        rcases Relation.ReflTransGen.cases_tail steps with
          rfl | ⟨joint, rest, step⟩
        · exact .inl member
        · have inExtent :=
            (covered (joint, target) (List.mem_append_right _ step)).1
          refine .inr ⟨.int joint, inExtent, ⟨start, joint, rfl, rfl, ?_⟩,
            mem_edges_iff.mpr step⟩
          rw [Connects, linear]
          exact ⟨last, member, rest⟩
  · rintro (base | ⟨middle, _, stepping⟩)
    · obtain ⟨start, target, rfl, rfl, member⟩ := exists_int_of_mem_edges base
      exact ⟨start, target, rfl, rfl, connects_base member⟩
    · rw [StepsOver] at stepping
      cases linear : predicate.linearity with
      | right =>
          simp only [linear] at stepping
          obtain ⟨step, joint, target, rfl, rfl, connection⟩ := stepping
          obtain ⟨start, other, rfl, equality, member⟩ :=
            exists_int_of_mem_edges step
          cases equality
          refine ⟨start, target, rfl, rfl, ?_⟩
          rw [Connects, linear] at connection ⊢
          obtain ⟨last, steps, base⟩ := connection
          exact ⟨last, .head member steps, base⟩
      | left =>
          simp only [linear] at stepping
          obtain ⟨⟨start, joint, rfl, rfl, connection⟩, step⟩ := stepping
          obtain ⟨other, target, equality, rfl, member⟩ :=
            exists_int_of_mem_edges step
          cases equality
          refine ⟨start, target, rfl, rfl, ?_⟩
          rw [Connects, linear] at connection ⊢
          obtain ⟨last, base, steps⟩ := connection
          exact ⟨last, base, steps.tail member⟩

section Calls

variable {extent : List Value} {pathSite : Site} {first second : Value}

theorem lookup_global {name : Name} {value : Value}
    (found : session.globals.lookup name = some value)
    (unbound : env.lookup name = none) :
    session.lookup env name = .ok value := by
  simp only [Session.lookup, unbound, found]
  rfl

theorem lookup_stepName_none (predicate : PathPredicate)
    (middle second first : Value) :
    List.lookup predicate.stepName
      [("z", middle), ("y", second), ("x", first)] = none := by
  rcases predicate.stepName_mem with name | name <;> rw [name] <;> rfl

variable (known : predicate.KnownTo session)
  (path : session.globals.lookup "path" =
    some (.closure (predicate.closure pathSite)))
  (limited : session.limits.extent = some extent)

include known

theorem decides_baseArm :
    Decides (baseArm.eval session call [("y", second), ("x", first)] site)
      (∃ edge ∈ predicate.base, Value.tuple [first, second] = edge.value) :=
  decides_membership rfl rfl (lookup_global known.base rfl)

include path limited

theorem decides_stepArm
    (decides : ∀ left right site,
      Decides (call (predicate.closure pathSite) site
      (.tuple [left, right])) (predicate.ConnectsValues left right)) :
    Decides
      (predicate.stepArm.eval session call [("y", second), ("x", first)] site)
      (∃ middle ∈ extent, predicate.StepsOver first middle second) := by
  refine Decides.existence limited ?_
  intro middle site
  have stepEval := lookup_global known.step
    (predicate.lookup_stepName_none middle second first)
  have pathEval :
    session.lookup [("z", middle), ("y", second), ("x", first)] "path" =
      .ok (.closure (predicate.closure pathSite)) := lookup_global path rfl
  rw [StepsOver]
  cases linear : predicate.linearity with
  | right =>
      simp only [clauses, linear]
      refine Decides.andAlso (decides_membership rfl rfl stepEval) ?_
      rw [eval_call rfl rfl pathEval]
      exact decides middle second _
  | left =>
      simp only [clauses, linear]
      refine Decides.andAlso ?_ (decides_membership rfl rfl stepEval)
      rw [eval_call rfl rfl pathEval]
      exact decides first middle _

/-- A call of the predicate that returns decides whether its argument is
connected. -/
theorem decides_path (covered : predicate.CoveredBy extent) (left : Nat)
    (first second : Value) (site : Site) :
    Decides (session.call left (predicate.closure pathSite) site
      (.tuple [first, second])) (predicate.ConnectsValues first second) := by
  induction left generalizing first second site with
  | zero =>
      intro result evaluated
      cases evaluated
  | succ left induction =>
      change Decides (predicate.body.eval session (session.call left)
        [("y", second), ("x", first)] site) _
      rw [connectsValues_iff covered, body]
      split
      · exact Decides.orElse (decides_baseArm known)
          (decides_stepArm known path limited induction)
      · rw [or_comm]
        exact Decides.orElse (decides_stepArm known path limited induction)
          (decides_baseArm known)

end Calls

section Query

variable {extent : List Value} {pathSite : Site}

theorem mem_of_extentRows {rows : List Value}
    (ranged : param.extentRows (some extent) = .ok rows) {row : Value} :
    row ∈ rows ↔ ∃ first second, (first ∈ extent ∧ second ∈ extent) ∧
      row = .tuple [first, second] := by
  cases ranged
  simp [eq_comm]

/-- A connection runs between integers of the extent. -/
theorem mem_extent_of_connects (covered : predicate.CoveredBy extent)
    {start target : Int64} (connection : predicate.Connects start target) :
    Value.int start ∈ extent ∧ Value.int target ∈ extent := by
  refine @mem_of_connects predicate
    (fun start target => Value.int start ∈ extent ∧ Value.int target ∈ extent)
    ?_ ?_ ?_ start target connection
  · intro start target member
    exact covered (start, target) (List.mem_append_left _ member)
  · intro _ start joint target step inExtent
    exact ⟨(covered (start, joint) (List.mem_append_right _ step)).1,
      inExtent.2⟩
  · intro _ start joint target inExtent step
    exact ⟨inExtent.1,
      (covered (joint, target) (List.mem_append_right _ step)).2⟩

variable (known : predicate.KnownTo session)
  (path : session.globals.lookup "path" =
    some (.closure (predicate.closure pathSite)))
  (limited : session.limits.extent = some extent)
  (covered : predicate.CoveredBy extent)

include known path limited covered

/-- The rows that enumeration finds below a pair of values; they need a call. -/
theorem mem_below_pair {left : Nat} {part : Rows}
    (done : Expr.collectScans session (session.call left)
      (fun env site scanned =>
        Expr.evalSteps session (session.call left) env site
        (.ofScanned scanned) [.filter (PathPredicate.call "x" "y")])
      [("y", second), ("x", first)] site [.tuple [first, second]] [] =
        .ok part) :
    0 < left ∧ ∀ row, row ∈ part.rows ↔
      predicate.ConnectsValues first second ∧ row = .tuple [first, second] := by
  obtain ⟨output, stepped, rfl⟩ := Expr.collectScans_nil_eq_ok_iff.mp done
  have called : (PathPredicate.call "x" "y").eval session (session.call left)
      [("y", second), ("x", first)] (0 :: site) = session.call left
        (predicate.closure pathSite) (2 :: 0 :: site)
        (.tuple [first, second]) :=
    eval_call rfl rfl (lookup_global path rfl)
  constructor
  · cases left with
    | zero =>
        rw [Expr.evalSteps, called] at stepped
        cases stepped
    | succ left => exact Nat.zero_lt_succ left
  · intro row
    have decides :=
      decides_path known path limited covered left first second (2 :: 0 :: site)
    rw [← called] at decides
    rcases Decides.evalSteps_filter decides stepped with
      ⟨holding, rfl⟩ | ⟨failing, rfl⟩
    · simp [holding, Value.ofScanned]
    · simp [failing]

/-- If enumeration returns, its rows are the connections; a pair of values has
then been looked at with a call. -/
theorem eval_query {value : Value}
    (evaluated : session.eval site query = .ok value) :
    ∃ kind rows, value = .collection kind rows ∧
      (∀ row, row ∈ rows ↔ ∃ start target, row = Edge.value (start, target) ∧
        predicate.Connects start target) ∧
      (extent ≠ [] → 0 < session.limits.maxDepth) := by
  rw [Session.eval, Session.evalIn, query, Expr.eval,
    Outcome.bind_eq_ok_iff] at evaluated
  obtain ⟨found, collected, evaluated⟩ := evaluated
  cases evaluated
  obtain ⟨sourced, ranged, returned, origin⟩ :=
    Expr.mem_collectScans_cons collected
  rw [Expr.evalSource, limited, Outcome.bind_eq_ok_iff] at ranged
  obtain ⟨rows, ranged, sourcedEq⟩ := ranged
  cases sourcedEq
  have below : ∀ first ∈ extent, ∀ second ∈ extent, ∃ part : Rows,
      part.rows ⊆ found.rows ∧ 0 < session.limits.maxDepth ∧
      ∀ row, row ∈ part.rows ↔
        predicate.ConnectsValues first second ∧
        row = .tuple [first, second] := by
    intro first firstMember second secondMember
    have inRows := (mem_of_extentRows ranged).mpr
      ⟨first, second, ⟨firstMember, secondMember⟩, rfl⟩
    obtain ⟨index, here⟩ := List.getElem?_of_mem inRows
    obtain ⟨part, done, included⟩ := returned index _ _ here rfl
    obtain ⟨depth, members⟩ := mem_below_pair known path limited covered done
    exact ⟨part, included, depth, members⟩
  refine ⟨found.kind, found.rows, rfl, ?_, ?_⟩
  · intro row
    constructor
    · intro member
      obtain ⟨index, scanned, inner, part, here, binds, done, inPart⟩ :=
        origin row member
      obtain ⟨first, second, _, rfl⟩ :=
        (mem_of_extentRows ranged).mp (List.mem_of_getElem? here)
      cases binds
      obtain ⟨⟨start, target, rfl, rfl, connection⟩, rfl⟩ :=
        ((mem_below_pair known path limited covered done).2 row).mp inPart
      exact ⟨start, target, rfl, connection⟩
    · rintro ⟨start, target, rfl, connection⟩
      obtain ⟨startMember, targetMember⟩ :=
        mem_extent_of_connects covered connection
      obtain ⟨part, included, _, members⟩ := below _ startMember _ targetMember
      exact included
        ((members _).mpr ⟨⟨start, target, rfl, rfl, connection⟩, rfl⟩)
  · intro nonempty
    obtain ⟨value, member⟩ := List.exists_mem_of_ne_nil extent nonempty
    obtain ⟨_, _, depth, _⟩ := below value member value member
    exact depth

end Query

/-- Whatever the depth of calls and the extent: if enumeration returns, it finds
the rows that the plan finds.  The plan needs one call, unless even enumeration
needs none. -/
theorem enumeration_agrees_with_plan {settings : Settings}
    (declared : predicate.DeclaredIn program)
    (enabled : settings.enabled = true) (allowed : 1 ≤ settings.maxStepCases) :
    ∃ plan, (PredicateInverter.ofProgram program settings).plan query =
      .ok plan ∧
      ∀ (limits planLimits : Limits) (extent : List Value)
        (session planSession : Session),
        limits.extent = some extent → predicate.CoveredBy extent →
        min 1 limits.maxDepth ≤ planLimits.maxDepth →
        predicate.pairBound < planLimits.rounds →
        Session.load program limits = .ok session →
        Session.load program planLimits = .ok planSession →
        ∀ site planSite value, session.eval site query = .ok value →
          ∃ kind rows planRows, value = .collection kind rows ∧
            planSession.eval planSite plan = .ok (.collection .list planRows) ∧
            ∀ row, row ∈ rows ↔ row ∈ planRows := by
  obtain ⟨source, middle, other, found, increment, planned, stepSource,
    names⟩ :=
    predicate.exists_plan declared enabled allowed
  refine ⟨_, planned, ?_⟩
  intro limits planLimits extent session planSession limited covered depth
    enough loaded planLoaded site planSite value evaluated
  obtain ⟨pathSite, path⟩ := Session.settles_of_load loaded declared.path
  have sameLimits := Session.limits_of_load loaded
  have samePlanLimits := Session.limits_of_load planLoaded
  rw [← sameLimits] at limited depth
  rw [← samePlanLimits] at depth enough
  obtain ⟨kind, rows, rfl, members, calls⟩ :=
    eval_query (declared.knownTo loaded) path limited covered evaluated
  have depth : predicate.base = [] ∨ 0 < planSession.limits.maxDepth := by
    by_cases empty : extent = []
    · left
      rw [List.eq_nil_iff_forall_not_mem]
      intro edge member
      have inExtent := (covered edge (List.mem_append_left _ member)).1
      rw [empty] at inExtent
      cases inExtent
    · right
      have positive := calls empty
      omega
  obtain ⟨edges, planEvaluated, _, planMembers⟩ :=
    eval_plan (declared.knownTo planLoaded) declared names stepSource depth
      enough planSite
  refine ⟨kind, rows, edges.map Edge.value, rfl, planEvaluated, ?_⟩
  intro row
  rw [members, List.mem_map]
  constructor
  · rintro ⟨start, target, rfl, connection⟩
    exact ⟨(start, target), (planMembers start target).mpr connection, rfl⟩
  · rintro ⟨⟨start, target⟩, member, rfl⟩
    exact ⟨start, target, rfl, (planMembers start target).mp member⟩

/-- Two steps in a row, one of them listed twice, and a base row behind them. -/
def chain : PathPredicate :=
  ⟨[(3, 4)], some [(1, 2), (2, 3), (2, 3)], .right, false⟩

def chainLimits : Limits :=
  { maxDepth := 4, extent := some [.int 1, .int 2, .int 3, .int 4] }

theorem enumeration_agrees_with_plan_chain :
    ∃ plan session kind rows planRows,
      (PredicateInverter.ofProgram ⟨chain.decls⟩ {}).plan query = .ok plan ∧
      Session.load ⟨chain.decls⟩ chainLimits = .ok session ∧
      session.eval (Session.root 0) query = .ok (.collection kind rows) ∧
      session.eval (Session.root 1) plan = .ok (.collection .list planRows) ∧
      ∀ row, row ∈ rows ↔ row ∈ planRows := by
  have returns : (Session.load ⟨chain.decls⟩ chainLimits >>= fun session =>
      session.eval (Session.root 0) query).isOk = true := by
    decide +kernel
  obtain ⟨value, evaluated⟩ : ∃ value,
    (Session.load ⟨chain.decls⟩ chainLimits >>=
      fun session => session.eval (Session.root 0) query) = .ok value := by
    cases evaluated : Session.load ⟨chain.decls⟩ chainLimits >>= fun session =>
        session.eval (Session.root 0) query with
    | ok value => exact ⟨value, rfl⟩
    | error halt =>
        rw [evaluated] at returns
        cases returns
  obtain ⟨session, loaded, evaluated⟩ := Outcome.bind_eq_ok_iff.mp evaluated
  have covered : chain.CoveredBy [.int 1, .int 2, .int 3, .int 4] := by
    simp [CoveredBy, chain, stepEdges]
  obtain ⟨plan, planned, agrees⟩ :=
    @enumeration_agrees_with_plan chain ⟨chain.decls⟩ {}
    chain.declaredIn_decls rfl (by decide)
  obtain ⟨kind, rows, planRows, rfl, planEvaluated, members⟩ :=
    agrees chainLimits chainLimits _
    session session rfl covered (by decide) (by decide) loaded loaded
      (Session.root 0)
    (Session.root 1) value evaluated
  exact ⟨plan, session, kind, rows, planRows, planned, loaded, evaluated,
    planEvaluated, members⟩

end PathPredicate

end RecursiveQuery
