import RecursiveQuery.Proofs.CallShapes
import RecursiveQuery.Proofs.KnownPlan
import RecursiveQuery.Proofs.PathPredicate
import RecursiveQuery.Proofs.PlanStages
import RecursiveQuery.Proofs.WiderLimits

/-!
# Free variables of plans

A plan mentions the free variables of its query and names that the program
provides, and nothing else: unless a variable of the scan stands for whole rows
while the scan has others, which nothing binds, or a function ignores a part of
its argument, which may then stay unbound.  A provided name is not safe from the
query: a scan variable of that name captures it.
-/

namespace RecursiveQuery

namespace Expr

theorem freeVars_of_mem {item : Expr} {items : List Expr}
    (member : item ∈ items) : item.freeVars ⊆ freeVarsList items := by
  induction items with
  | nil => cases member
  | cons first items induction =>
      rcases List.mem_cons.mp member with rfl | later
      · exact List.subset_append_left _ _
      · exact List.subset_append_of_subset_right _ (induction later)

end Expr

namespace CallShape

variable {wanted reserved : List Name}
variable {pairs : List (Pattern × Expr)}

theorem NamesRows.targets {clash : Name → Bool} {formals : List Pattern}
    {goals : List Name} {replacements : Replacements}
    (named : NamesRows clash reserved formals goals replacements) :
    ∀ replacement ∈ replacements, ∃ goal ∈ goals, replacement.2 =
      .var goal := by
  have later {goals : List Name} {replacements : Replacements} (goal : Name)
      (targets : ∀ replacement ∈ replacements, ∃ goal ∈ goals, replacement.2 =
        .var goal) :
      ∀ replacement ∈ replacements, ∃ other ∈ goal :: goals, replacement.2 =
        .var other := by
    intro replacement member
    obtain ⟨other, isGoal, target⟩ := targets replacement member
    exact ⟨other, List.mem_cons_of_mem _ isGoal, target⟩
  induction named with
  | nil => exact nofun
  | kept _ _ induction => exact later _ induction
  | drawn _ _ induction =>
      split
      · exact later _ induction
      · exact List.forall_mem_cons.mpr
          ⟨⟨_, List.mem_cons_self, rfl⟩, later _ induction⟩

/-- The names of components are the goals, and the equations that are left
equate them with components of the argument. -/
structure Spans (shape : CallShape) (goals : List Name) (items : List Expr) :
    Prop where
  goals : goals ⊆ shape.goals
  pattern : shape.pattern = .row shape.goals
  targets : ∀ replacement ∈ shape.replacements, ∃ goal ∈ shape.goals,
    replacement.2 = .var goal
  residual : ∀ condition ∈ shape.residual,
    condition.Within fun name => name ∈ shape.goals ∨
    ∃ item ∈ items, name ∈ item.freeVars

theorem Spans.replacing {shape : CallShape} {goals : List Name}
    {items : List Expr} {component : Name} (formal : Name) (item : Expr)
    (spans : shape.Spans (goals ++ [component]) items) :
    (shape.replacing formal component).Spans goals (item :: items) := by
  refine ⟨(List.append_subset.mp spans.goals).1, spans.pattern, ?_, ?_⟩
  · rw [CallShape.replacing]
    dsimp only
    split
    · exact spans.targets
    · refine List.forall_mem_cons.mpr ⟨⟨component, ?_, rfl⟩, spans.targets⟩
      exact spans.goals (by simp)
  · intro condition member
    refine (spans.residual condition member).mono fun name isKnown =>
      isKnown.imp_right ?_
    rintro ⟨other, inItems, occurs⟩
    exact ⟨other, List.mem_cons_of_mem _ inItems, occurs⟩

theorem NamesComponents.spans {goals : List Name} {shape : CallShape}
    (named : NamesComponents wanted reserved pairs goals shape) :
    shape.Spans goals (pairs.map Prod.snd) := by
  induction named with
  | nil => exact ⟨List.Subset.refl _, rfl, nofun, nofun⟩
  | kept _ _ _ induction => exact induction.replacing _ _
  | @drawn formal component item pairs goals shape _ _ induction =>
      have rest := induction.replacing formal item
      refine { rest with residual :=
        List.forall_mem_cons.mpr ⟨?_, rest.residual⟩ }
      intro name member
      rcases List.mem_cons.mp member with rfl | inItem
      · exact .inl (induction.goals (by simp))
      · exact .inr ⟨item, List.mem_cons_self, inItem⟩

theorem freeVars_of_pairs? {param : Pattern} {argument : Expr}
    (paired : pairs? param argument = some pairs) {item : Expr}
    (member : item ∈ pairs.map Prod.snd) :
    item.freeVars ⊆ argument.freeVars := by
  obtain ⟨⟨formal, _⟩, inPairs, rfl⟩ := List.mem_map.mp member
  unfold pairs? at paired
  split at paired
  · next formals items =>
      split at paired
      · cases paired
        exact Expr.freeVars_of_mem (List.of_mem_zip inPairs).2
      · cases paired
  · cases paired
    cases List.mem_singleton.mp inPairs
    exact List.Subset.refl _
  · cases paired

variable {param : Pattern} {argument : Expr} {shape : CallShape}
  (lined : LinesUp wanted reserved param argument shape)

include lined

theorem LinesUp.targets :
    ∀ replacement ∈ shape.replacements, ∃ goal ∈ shape.goals, replacement.2 =
      .var goal := by
  cases lined with
  | rows _ named => exact named.targets
  | components _ named _ => exact named.spans.targets

theorem LinesUp.residual : ∀ condition ∈ shape.residual,
    condition.Within fun name => name ∈ shape.pattern.occurrences ∨
      name ∈ argument.freeVars := by
  cases lined with
  | rows _ _ => exact nofun
  | components paired named _ =>
      intro condition member
      refine (named.spans.residual condition member).mono ?_
      rintro name (isGoal | ⟨item, inItems, occurs⟩)
      · rw [named.spans.pattern, Pattern.occurrences_row]
        exact .inl isGoal
      · exact .inr (freeVars_of_pairs? paired inItems occurs)

/-- All wanted variables are bound unless one of several stands for whole
rows. -/
theorem LinesUp.wanted_subset
    (alone : ∀ whole, argument = .var whole → whole ∈ wanted →
      wanted ⊆ [whole]) :
    wanted ⊆ shape.pattern.occurrences := by
  cases lined with
  | rows isWanted _ => exact alone _ rfl isWanted
  | components _ named covered =>
      rw [named.spans.pattern, Pattern.occurrences_row]
      exact covered

end CallShape

section Stages

variable {program : Program} {settings : Settings}

/-- The names of the program and those of the body whose tree is built are
taken. -/
theorem CallStages.reserved {call : Expr} {goals : List Name}
    (stages : CallStages program settings call goals) :
    program.names ⊆ stages.substituted.used ∧
      stages.instantiated.allNames ⊆ stages.substituted.used := by
  have isDeclared := (Program.decl?_eq_some stages.decl).1
  obtain ⟨shapedGrown, shapes⟩ :=
    (CallShape.ofCall_linesUp _ _ _ _).of_run stages.shapes
  obtain ⟨lined, among⟩ := shapes stages.shape rfl
  have declared : program.names ⊆ stages.shaped.used := by
    refine List.Subset.trans ?_ shapedGrown
    intro name member
    simp [Program.supplyFor, NameSupply.reserving, member]
  have replacementsReserved :
    stages.shape.replacements.Reserved stages.shaped := by
    intro replacement member
    obtain ⟨goal, isGoal, target⟩ := lined.targets replacement member
    rw [target]
    intro name isName
    rw [List.mem_singleton.mp isName]
    rcases among goal isGoal with reserved | given
    · exact reserved
    · refine shapedGrown ?_
      rcases List.mem_append.mp given with isWanted | isParam
      · simp [Program.supplyFor, NameSupply.reserving, isWanted]
      · simp [Program.supplyFor, NameSupply.reserving, isParam]
  obtain ⟨substitutedGrown, instantiatedReserved⟩ := (Expr.substitute_reserved
    (List.Subset.trans (Program.names_of_function isDeclared) declared)
    replacementsReserved).of_run stages.substitutes
  exact ⟨List.Subset.trans declared substitutedGrown, instantiatedReserved⟩

theorem CallStages.within {call : Expr} {goals : List Name}
    (stages : CallStages program settings call goals)
    (uses : program.UsesParameters) (source : JoinSource) :
    (stages.fixpoint source).source.Within program.Provides := by
  obtain ⟨declared, instantiatedReserved⟩ := stages.reserved
  have treeWithin :
    stages.tree.Within program (.initial stages.shape.goals []) :=
    ((AnalysisTree.buildWithin_known (Inversion.within_known uses _ _) _
      declared instantiatedReserved).of_run stages.builds).2
  have fixpointWithin :=
    (Recursion.plan_known (Recursion.ofTree_known treeWithin stages.reads)
    (fun name member => .inr (.inr member)) (settings.joining source)
    stages.supply).2
  refine Expr.Within.mono fixpointWithin ?_
  rintro name (bound | provided)
  · cases bound
  · exact provided

theorem CallStages.freeVars_argument {call : Expr} {goals : List Name}
    (stages : CallStages program settings call goals) :
    stages.argument.freeVars ⊆ call.freeVars := by
  have names := congrArg Expr.freeVars (Expr.eq_of_namedCall? stages.called)
  rw [names]
  exact List.subset_append_right _ _

namespace QueryStages

variable {expr : Expr} (stages : QueryStages program settings expr)
  (alone : ∀ whole, stages.call.argument = .var whole →
    whole ∈ stages.pattern.vars → stages.pattern.vars ⊆ [whole])

theorem linesUp :
    ∃ reserved, CallShape.LinesUp stages.pattern.vars reserved stages.call.param
    stages.call.argument stages.call.shape := by
  obtain ⟨-, shapes⟩ :=
    (CallShape.ofCall_linesUp _ _ _ _).of_run stages.call.shapes
  exact ⟨_, (shapes stages.call.shape rfl).1⟩

include alone

theorem vars_subset :
    stages.pattern.vars ⊆ stages.call.shape.pattern.occurrences := by
  obtain ⟨reserved, lined⟩ := stages.linesUp
  exact lined.wanted_subset alone

/-- What the steps of a query mention is bound by the new scan or free in the
query. -/
theorem known_of_mem {name : Name}
    (member : name ∈
      stages.condition.freeVars ++ Expr.freeVarsSteps stages.rest) :
    name ∈ stages.call.shape.pattern.occurrences ∨ name ∈ expr.freeVars := by
  by_cases scanned : name ∈ stages.pattern.occurrences
  · exact .inl (stages.vars_subset alone (Pattern.mem_vars.mpr scanned))
  · have free := congrArg Expr.freeVars stages.query
    right
    rw [free]
    exact Name.mem_outside.mpr ⟨member, scanned⟩

theorem conditions_within :
    ∀ condition ∈ stages.conditions, condition.Within fun name =>
    name ∈ stages.call.shape.pattern.occurrences ∨ name ∈ expr.freeVars := by
  have conjuncts : ∀ conjunct ∈ stages.condition.conjuncts,
    conjunct.Within fun name =>
      name ∈ stages.call.shape.pattern.occurrences ∨ name ∈ expr.freeVars :=
    fun conjunct isConjunct name member => stages.known_of_mem alone
      (List.mem_append_left _
        (Expr.freeVars_of_mem_conjuncts isConjunct member))
  refine List.forall_mem_append.mpr ⟨?_, ?_⟩
  · obtain ⟨reserved, lined⟩ := stages.linesUp
    intro condition member
    refine (lined.residual condition member).mono ?_
    rintro name (scanned | inArgument)
    · exact .inl scanned
    · exact conjuncts _ (List.mem_of_find?_eq_some stages.chosen) name
        (stages.call.freeVars_argument inArgument)
  · exact fun conjunct member =>
      conjuncts conjunct (List.mem_of_mem_eraseIdx member)

theorem steps_within : ∀ step ∈ stages.steps, step.expr.Within fun name =>
    name ∈ stages.call.shape.pattern.occurrences ∨ name ∈ expr.freeVars := by
  rw [steps]
  refine List.forall_mem_append.mpr ⟨List.forall_mem_append.mpr ⟨?_, ?_⟩, ?_⟩
  · split
    · exact nofun
    · intro step member
      rw [List.mem_singleton.mp member]
      exact Expr.within_conjunction (stages.conditions_within alone)
  · exact fun step member name occurs => stages.known_of_mem alone
      (List.mem_append_right _
        (Expr.mem_freeVarsSteps.mpr ⟨step, member, occurs⟩))
  · intro step member
    obtain ⟨row, isRow, rfl⟩ := List.mem_map.mp member
    have names :=
      (Pattern.names_of_toExpr? (stages.output_eq row (by simpa using isRow))).1
    intro name occurs
    have occurs : name ∈ row.freeVars := occurs
    rw [names] at occurs
    exact .inl (stages.vars_subset alone (Pattern.mem_vars.mpr occurs))

theorem plan_within (uses : program.UsesParameters) (source : JoinSource) :
    (stages.plan source).Within fun name => name ∈ expr.freeVars ∨
    program.Provides name := by
  intro name member
  rcases List.mem_append.mp member with inSource | behind
  · exact .inr (stages.call.within uses source name inSource)
  · obtain ⟨inSteps, unbound⟩ := Name.mem_outside.mp behind
    obtain ⟨step, isStep, occurs⟩ := Expr.mem_freeVarsSteps.mp inSteps
    exact .inl
      ((stages.steps_within alone step isStep name occurs).resolve_left unbound)

end QueryStages

end Stages

/-- Where the call that is planned takes one variable of the scan for whole
rows, the scan binds no other variable. -/
def PredicateInverter.TakesRows (inverter : PredicateInverter) (expr : Expr) :
    Prop :=
  ∀ pattern condition rest function whole,
    expr = .collect ⟨[⟨pattern, none⟩], .filter condition :: rest⟩ →
    condition.conjuncts.find? inverter.isCall =
      some (.apply (.var function) (.var whole)) →
    whole ∈ pattern.vars → pattern.vars ⊆ [whole]

/-- Planning introduces no free variable. -/
theorem plan_introduces_no_variable {program : Program} {settings : Settings}
    {expr plan : Expr} (uses : program.UsesParameters)
    (rows : (PredicateInverter.ofProgram program settings).TakesRows expr)
    (planned : (PredicateInverter.ofProgram program settings).plan expr =
      .ok plan) :
    ∀ name ∈ plan.freeVars,
      name ∈ expr.freeVars ∨ (program.decl? name).isSome = true ∨
      name ∈ Builtin.names := by
  rcases PredicateInverter.plan_cases program settings expr with
    ⟨refusal, refused⟩ | ⟨stages, plans⟩
  · cases planned.symm.trans (refused settings.joinSource)
  · cases planned.symm.trans (plans settings.joinSource)
    refine stages.plan_within ?_ uses settings.joinSource
    intro whole isRow
    have chosen := stages.chosen
    rw [Expr.eq_of_namedCall? stages.call.called, isRow] at chosen
    exact rows _ _ _ _ whole stages.query chosen

/-- Paths over a relation behind a helper function. -/
def helped : Program :=
  let near (first second : Name) : Expr :=
    .apply (.var "near") (.tuple [.var first, .var second])
  ⟨[.val "b" none (some (Edge.literals [(1, 2), (2, 3)])),
    .function "near" PathPredicate.param (PathPredicate.membership "x" "y" "b"),
    .function "path" PathPredicate.param (.orElse (near "x" "y")
      (.existence ⟨[⟨.var "z", none⟩],
        [.filter (.andAlso (near "x" "z") (PathPredicate.call "z" "y"))]⟩))]⟩

/-- The unfolded helper leaves no variable behind, and the bound of the query
stays free. -/
theorem plan_introduces_no_variable_helped :
    let expr : Expr := .collect ⟨[⟨.tuple [.var "x", .var "y"], none⟩],
      [.filter (.andAlso (PathPredicate.call "x" "y")
        (.binary .lt (.var "x") (.var "limit")))]⟩
    ∃ plan, (PredicateInverter.ofProgram helped {}).plan expr = .ok plan ∧
      plan.freeVars = ["List.iterate", "b", "b", "limit"] ∧
      ∀ name ∈ plan.freeVars,
        name ∈ expr.freeVars ∨ (helped.decl? name).isSome = true ∨
        name ∈ Builtin.names := by
  intro expr
  have names : ((PredicateInverter.ofProgram helped {}).plan expr).toOption.map
    Expr.freeVars =
      some ["List.iterate", "b", "b", "limit"] := by decide +kernel
  have uses : helped.UsesParameters := by
    intro name param body declared
    simp only [helped, List.mem_cons, List.not_mem_nil, or_false] at declared
    rcases declared with same | same | same
    · cases same
    · cases same
      exact ⟨rfl, by decide⟩
    · cases same
      exact ⟨rfl, by decide⟩
  have rows : (PredicateInverter.ofProgram helped {}).TakesRows expr := by
    intro pattern condition rest function whole same chosen
    simp only [expr, Expr.collect.injEq, Query.mk.injEq, List.cons.injEq,
      Step.filter.injEq] at same
    rw [← same.2.1] at chosen
    have called :
      ([PathPredicate.call "x" "y", .binary .lt (.var "x") (.var "limit")] :
        List Expr).find? (PredicateInverter.ofProgram helped {}).isCall =
          some (PathPredicate.call "x" "y") := by decide +kernel
    cases called.symm.trans chosen
  cases planned : (PredicateInverter.ofProgram helped {}).plan expr with
  | error refusal =>
      rw [planned] at names
      cases names
  | ok plan =>
      rw [planned] at names
      exact ⟨plan, rfl, Option.some.inj names,
        plan_introduces_no_variable uses rows planned⟩

/-- A query has a plan with a free variable that neither the query nor the
program has. -/
def Program.LeavesUnbound (program : Program) (expr : Expr) (name : Name) :
    Prop :=
  ∃ plan, (PredicateInverter.ofProgram program {}).plan expr = .ok plan ∧
    name ∈ plan.freeVars ∧ name ∉ expr.freeVars ∧ program.decl? name = none ∧
      name ∉ Builtin.names

theorem Program.leavesUnbound_of {program : Program} {expr : Expr} {name : Name}
    (free : ((PredicateInverter.ofProgram program {}).plan expr).toOption.map
      (fun plan => plan.freeVars.contains name) = some true)
    (new : name ∉ expr.freeVars) (undeclared : program.decl? name = none)
    (other : name ∉ Builtin.names) : program.LeavesUnbound expr name := by
  cases planned : (PredicateInverter.ofProgram program {}).plan expr with
  | error refusal =>
      rw [planned] at free
      cases free
  | ok plan =>
      rw [planned] at free
      exact ⟨plan, planned, List.contains_iff_mem.mp (Option.some.inj free),
        new, undeclared, other⟩

/-- Nothing binds the second variable of a scan whose first one stands for whole
rows, nor a variable that a function ignores. -/
theorem plan_leaves_variable_unbound :
    let pairs : PathPredicate := ⟨[(1, 2), (2, 3)], none, .right, true⟩
    let rows : Expr := .collect ⟨[⟨.tuple [.var "p", .var "q"], none⟩],
      [.filter (.apply (.var "path") (.var "p"))]⟩
    let ignoring : Program :=
      ⟨[.val "b" none (some (Edge.literals [(1, 2), (2, 3)])),
      .function "low" (.tuple [.var "a", .var "c"])
        (.binary .lt (.var "a") (.int 3)),
      .function "path" PathPredicate.param (.orElse PathPredicate.baseArm
        (.existence ⟨[⟨.var "z", none⟩, ⟨.var "w", none⟩],
          [.filter (.andAlso (.andAlso (PathPredicate.membership "x" "z" "b")
            (PathPredicate.call "z" "y"))
            (.apply (.var "low") (.tuple [.var "z", .var "w"])))]⟩))]⟩
    Program.LeavesUnbound ⟨pairs.decls⟩ rows "q" ∧
    ignoring.LeavesUnbound PathPredicate.query "w" := by
  intro pairs rows ignoring
  exact ⟨Program.leavesUnbound_of (by decide +kernel) (by decide) (by decide)
    (by decide),
    Program.leavesUnbound_of (by decide +kernel) (by decide) (by decide)
      (by decide)⟩

/-- Paths whose intermediate nodes stay below a declared bound. -/
def bounded : Program :=
  ⟨[.val "b" none (some (Edge.literals [(1, 2), (2, 3), (3, 4)])),
    .val "k" none (some (.int 3)),
    .function "path" PathPredicate.param (.orElse PathPredicate.baseArm
      (.existence ⟨[⟨.var "z", none⟩], [.filter (.andAlso
        (.andAlso (PathPredicate.membership "x" "z" "b")
          (PathPredicate.call "z" "y"))
        (.binary .lt (.var "z") (.var "k")))]⟩))]⟩

/-- The paths from a variable to one of a given name, as a query and as a plan
for it. -/
def boundedQuery (target : Name) : Expr :=
  .collect ⟨[⟨.tuple [.var "x", .var target], none⟩],
    [.filter (PathPredicate.call "x" target)]⟩

def boundedPlan (target : Name) : Expr :=
  .collect ⟨[⟨.tuple [.var "x", .var target], some (.apply
    (.apply (.var "List.iterate") (.var "b"))
    (.lambda (.tuple [.var "old", .var "new"]) (.collect (.filtered
      [⟨.tuple [.var "x", .var "z"], some (.var "b")⟩,
        ⟨.tuple [.var "z_1", .var target], some (.var "new")⟩]
      [.equals (.var "z") (.var "z_1"), .binary .lt (.var "z") (.var "k")]
      (.row ["x", target])))))⟩], []⟩

/-- A query has a plan, which evaluates to some rows. -/
def Program.Answers (program : Program) (expr plan : Expr) (rows : List Edge) :
    Prop :=
  ((PredicateInverter.ofProgram program {}).plan expr).toOption = some plan ∧
    program.evaluate {} (Session.root 0) [] plan = .ok (Edge.relation rows)

/-- A scan variable takes the place of a declared value that the predicate
mentions: the bound holds for the variables `x` and `y`, but not for `x` and
`k`. -/
theorem scan_variable_captures_declared_value :
    let rows : List Edge := [(1, 2), (2, 3), (3, 4), (1, 3)]
    bounded.Answers (boundedQuery "y") (boundedPlan "y") rows ∧
      bounded.Answers (boundedQuery "k") (boundedPlan "k")
        (rows ++ [(2, 4), (1, 4)]) := by
  intro rows
  exact ⟨⟨by decide +kernel, rfl⟩, by decide +kernel, rfl⟩

end RecursiveQuery
