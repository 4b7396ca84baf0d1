import RecursiveQuery.Inversion.QueryPlan
import RecursiveQuery.Proofs.FreshNames

/-!
# Stages of a plan

A query is planned by lining up a call with the parameter of its predicate,
replacing the parameter, building the tree of the body and reading a recursion
off the tree.  None of these stages asks what the steps of the recursion scan,
so settings that differ in that alone refuse the same queries.
-/

namespace RecursiveQuery

theorem Expr.eq_of_namedCall? {call argument : Expr} {function : Name}
    (called : call.namedCall? = some (function, argument)) :
    call = .apply (.var function) argument := by
  unfold namedCall? at called
  split at called
  · cases called
    rfl
  · cases called

/-- The same settings with a given source of joins. -/
def Settings.joining (settings : Settings) (source : JoinSource) : Settings :=
  { settings with joinSource := source }

/-- The names that are taken when a call is inverted. -/
def Program.supplyFor (program : Program) (param : Pattern) (body call : Expr)
    (goals : List Name) : NameSupply :=
  .reserving (body.allNames ++ call.allNames ++ goals ++ [] ++ program.names ++
    param.vars ++ Builtin.names)

/-- How a call leads to a recursion: its predicate and argument, the shape of
the call, the body and its tree, and the supply of names that each stage
leaves. -/
structure CallStages (program : Program) (settings : Settings) (call : Expr)
    (goals : List Name) where
  (declared predicate : Name)
  (argument body instantiated : Expr)
  param : Pattern
  shape : CallShape
  (shaped substituted supply : NameSupply)
  tree : AnalysisTree
  recursion : Recursion
  called : call.namedCall? = some (predicate, argument)
  decl : program.decl? predicate = some (.function declared param body)
  shapes : (CallShape.ofCall param argument goals []).run
    (program.supplyFor param body call goals) = (.ok shape, shaped)
  substitutes : (body.substitute shape.replacements).run shaped =
    (instantiated, substituted)
  builds : (AnalysisTree.build program (Inversion.base program) [predicate]
    (.initial shape.goals []) instantiated).run substituted = (tree, supply)
  reads : Recursion.ofTree settings (Scope.initial shape.goals []).goals tree =
    .ok recursion

/-- The fixpoint that the recursion of a call amounts to. -/
def CallStages.fixpoint {program : Program} {settings : Settings} {call : Expr}
    {goals : List Name} (stages : CallStages program settings call goals)
    (source : JoinSource) : Generator :=
  ((stages.recursion.plan (settings.joining source)).run stages.supply).1

/-- How a query leads to a plan: the pattern of its only scan, its first
condition and later steps, the conjunct that is inverted, and the output that is
added. -/
structure QueryStages (program : Program) (settings : Settings) (expr : Expr)
    where
  pattern : Pattern
  condition : Expr
  index : Nat
  rest : List Step
  call : CallStages program settings (condition.conjuncts.getD index condition)
    pattern.vars
  output : Option Expr
  query : expr = .collect ⟨[⟨pattern, none⟩], .filter condition :: rest⟩
  chosen : condition.conjuncts.find?
    (PredicateInverter.ofProgram program settings).isCall =
    some (condition.conjuncts.getD index condition)
  output_eq : ∀ row ∈ output, pattern.toExpr? = some row

namespace QueryStages

variable {program : Program} {settings : Settings} {expr : Expr}

/-- The conditions that remain beside the call. -/
def conditions (stages : QueryStages program settings expr) : List Expr :=
  stages.call.shape.residual ++ stages.condition.conjuncts.eraseIdx stages.index

/-- The steps behind the scan of the fixpoint. -/
def steps (stages : QueryStages program settings expr) : List Step :=
  (if stages.conditions.isEmpty then [] else
    [.filter (.conjunction stages.conditions)]) ++
    stages.rest ++ stages.output.toList.map .yield

def plan (stages : QueryStages program settings expr) (source : JoinSource) :
    Expr :=
  .collect
    ⟨[⟨stages.call.shape.pattern, some (stages.call.fixpoint source).source⟩],
    stages.steps⟩

end QueryStages

namespace PredicateInverter

section Invert

variable {program : Program} {settings : Settings} {call argument body : Expr}
  {goals : List Name} {declared predicate : Name} {param : Pattern}
    {shaped : NameSupply}

theorem invert_of_disabled (disabled : settings.enabled = false) :
    (ofProgram program settings).invert call goals [] =
    .error (.noMatch .disabled) := by
  have disabled : (ofProgram program settings).settings.enabled = false :=
    disabled
  simp only [invert, disabled]
  rfl

theorem invert_of_not_call (enabled : settings.enabled = true)
    (uncalled : call.namedCall? = none) :
    (ofProgram program settings).invert call goals [] =
    .error (.noMatch (.notCall call)) := by
  have enabled : (ofProgram program settings).settings.enabled = true := enabled
  simp only [invert, enabled, uncalled]
  rfl

theorem invert_of_not_function (enabled : settings.enabled = true)
    (called : call.namedCall? = some (predicate, argument))
    (other : ∀ declared param body,
      program.decl? predicate ≠ some (.function declared param body)) :
    (ofProgram program settings).invert call goals [] =
    .error (.notFunction predicate) := by
  have enabled : (ofProgram program settings).settings.enabled = true := enabled
  simp only [invert, enabled, called]
  cases decl : (ofProgram program settings).program.decl? predicate with
  | none => rfl
  | some found =>
      cases found with
      | val name type value => rfl
      | function declared param body =>
          exact absurd decl (other declared param body)

theorem invert_of_shape {shapes : Except Refusal CallShape}
    (enabled : settings.enabled = true)
    (called : call.namedCall? = some (predicate, argument))
    (decl : program.decl? predicate = some (.function declared param body))
    (shaping : (CallShape.ofCall param argument goals []).run
      (program.supplyFor param body call goals) = (shapes, shaped)) :
    (ofProgram program settings).invert call goals [] = shapes.bind fun shape =>
      (((ofProgram program settings).invertBody predicate body [] shape).run
        shaped).1 := by
  have decl : (ofProgram program settings).program.decl? predicate = _ := decl
  have enabled : (ofProgram program settings).settings.enabled = true := enabled
  simp only [invert, enabled, called, decl]
  change ((CallShape.ofCall param argument goals [] >>= _ :
    Naming (Except Refusal InvertedCall)).run
    (program.supplyFor param body call goals)).1 = _
  rw [Naming.run_bind, shaping]
  cases shapes <;> rfl

section Body

variable {shape : CallShape} {instantiated : Expr} {tree : AnalysisTree}
  {substituted supply : NameSupply}
  (substitutes : (body.substitute shape.replacements).run shaped =
    (instantiated, substituted))
  (builds : (AnalysisTree.build program (Inversion.base program) [predicate]
    (.initial shape.goals []) instantiated).run substituted = (tree, supply))

include substitutes builds

theorem invertBody_eq :
    (((ofProgram program settings).invertBody predicate body [] shape).run
      shaped).1 =
      (Recursion.ofTree settings (Scope.initial shape.goals []).goals tree).map
        fun recursion => ⟨{ ((recursion.plan settings).run supply).1 with
          pattern := shape.pattern }, shape.residual⟩ := by
  rw [invertBody, Naming.run_bind, substitutes]
  change ((AnalysisTree.build program (Inversion.base program) [predicate]
    (.initial shape.goals []) instantiated >>= _ :
      Naming (Except Refusal InvertedCall)).run substituted).1 = _
  rw [Naming.run_bind, builds]
  dsimp only [ofProgram]
  cases Recursion.ofTree settings (Scope.initial shape.goals []).goals
    tree <;> rfl

end Body

end Invert

/-- A call is refused whatever the steps scan, or its stages lead to a fixpoint
that stands for it. -/
theorem invert_cases (program : Program) (settings : Settings) (call : Expr)
    (goals : List Name) :
    (∃ refusal, ∀ source,
      (ofProgram program (settings.joining source)).invert call goals [] =
        .error refusal) ∨
    ∃ stages : CallStages program settings call goals, ∀ source,
      (ofProgram program (settings.joining source)).invert call goals [] =
        .ok ⟨{ stages.fixpoint source with pattern := stages.shape.pattern },
          stages.shape.residual⟩ := by
  by_cases enabled : settings.enabled = true
  case neg =>
    have disabled : settings.enabled = false := by simpa using enabled
    exact .inl ⟨_, fun source => invert_of_disabled disabled⟩
  have joined source : (settings.joining source).enabled = true := enabled
  cases called : call.namedCall? with
  | none => exact .inl ⟨_, fun source => invert_of_not_call enabled called⟩
  | some callee =>
      obtain ⟨predicate, argument⟩ := callee
      by_cases function : ∃ declared param body,
        program.decl? predicate = some (.function declared param body)
      case neg =>
        simp only [not_exists] at function
        exact .inl
          ⟨_, fun source => invert_of_not_function enabled called function⟩
      obtain ⟨declared, param, body, decl⟩ := function
      cases shapes : (CallShape.ofCall param argument goals []).run
        (program.supplyFor param body call goals) with
      | mk result shaped =>
      cases result with
      | error refusal =>
          refine .inl ⟨refusal, ?_⟩
          intro source
          exact invert_of_shape (joined source) called decl shapes
      | ok shape =>
          cases substitutes :
            (body.substitute shape.replacements).run shaped with
          | mk instantiated substituted =>
          cases builds :
            (AnalysisTree.build program (Inversion.base program) [predicate]
            (.initial shape.goals []) instantiated).run substituted with
          | mk tree supply =>
          have inverts source :=
            (invert_of_shape (joined source) called decl shapes).trans
              (invertBody_eq substitutes builds)
          cases reads : Recursion.ofTree settings
            (Scope.initial shape.goals []).goals tree with
          | error refusal =>
              refine .inl ⟨refusal, ?_⟩
              intro source
              exact (inverts source).trans (congrArg (Except.map _) reads)
          | ok recursion =>
              refine .inr ⟨⟨declared, predicate, argument, body, instantiated,
                param, shape,
                shaped, substituted, supply, tree, recursion, called, decl,
                shapes, substitutes,
                builds, reads⟩, ?_⟩
              intro source
              exact (inverts source).trans (congrArg (Except.map _) reads)

theorem planFilter_cases (program : Program) (settings : Settings)
    (pattern : Pattern) (condition : Expr) (rest : List Step) :
    let expr := Expr.collect ⟨[⟨pattern, none⟩], .filter condition :: rest⟩
    (∃ refusal, ∀ source,
      (ofProgram program (settings.joining source)).plan expr =
      .error refusal) ∨
    ∃ stages : QueryStages program settings expr, ∀ source,
      (ofProgram program (settings.joining source)).plan expr =
      .ok (stages.plan source) := by
  intro expr
  cases found :
    condition.conjuncts.findIdx? (ofProgram program settings).isCall with
  | none =>
      refine .inl ⟨.noMatch (.noCall condition), ?_⟩
      intro source
      have found : condition.conjuncts.findIdx?
        (ofProgram program (settings.joining source)).isCall = none := found
      simp only [expr, plan, planQuery, found]
      rfl
  | some index =>
      have chosen :
        condition.conjuncts.find? (ofProgram program settings).isCall =
          some (condition.conjuncts.getD index condition) := by
        obtain ⟨inside, isCall, before⟩ :=
          List.findIdx?_eq_some_iff_getElem.mp found
        rw [List.getD_eq_getElem?_getD, List.getElem?_eq_getElem inside,
          Option.getD_some]
        exact List.find?_eq_some_iff_getElem.mpr
          ⟨isCall, index, inside, rfl, fun other earlier => by
          simpa using before other earlier⟩
      have found : ∀ source, condition.conjuncts.findIdx?
        (ofProgram program (settings.joining source)).isCall = some index :=
        fun _ => found
      rcases invert_cases program settings
        (condition.conjuncts.getD index condition)
        pattern.vars with ⟨refusal, refused⟩ | ⟨call, inverts⟩
      · refine .inl ⟨refusal, ?_⟩
        intro source
        simp only [expr, plan, planQuery, found, refused]
        rfl
      · by_cases projected : (call.shape.pattern ≠ pattern && !Query.hasYield
          ⟨[⟨pattern, none⟩], .filter condition :: rest⟩) = true
        case neg =>
          refine .inr ⟨⟨pattern, condition, index, rest, call, none, rfl,
            chosen, nofun⟩, ?_⟩
          intro source
          simp only [expr, plan, planQuery, found, inverts, bind, Except.bind]
          rw [if_neg projected]
          rfl
        cases outputs : pattern.toExpr? with
        | none =>
            refine .inl ⟨.noMatch (.notProjectable pattern), ?_⟩
            intro source
            simp only [expr, plan, planQuery, found, inverts, bind, Except.bind]
            rw [if_pos projected, outputs]
            rfl
        | some row =>
            let stages : QueryStages program settings expr :=
              ⟨pattern, condition, index, rest, call, some row, rfl, chosen,
                fun other member =>
                  outputs.trans (by rw [Option.mem_some.mp member])⟩
            refine .inr ⟨stages, ?_⟩
            intro source
            simp only [expr, plan, planQuery, found, inverts, bind, Except.bind]
            rw [if_pos projected, outputs]
            rfl

/-- A query is refused whatever the steps scan, or its stages lead to its
plans. -/
theorem plan_cases (program : Program) (settings : Settings) (expr : Expr) :
    (∃ refusal, ∀ source,
      (ofProgram program (settings.joining source)).plan expr =
        .error refusal) ∨
    ∃ stages : QueryStages program settings expr, ∀ source,
      (ofProgram program (settings.joining source)).plan expr =
        .ok (stages.plan source) := by
  cases expr with
  | collect query =>
      obtain ⟨scans, steps⟩ := query
      rcases scans with _ | ⟨⟨pattern, _ | given⟩, _ | ⟨second, scans⟩⟩
      · exact .inl ⟨_, fun source => rfl⟩
      · rcases steps with _ | ⟨condition | value, rest⟩
        · exact .inl ⟨_, fun source => rfl⟩
        · exact planFilter_cases program settings pattern condition rest
        · exact .inl ⟨_, fun source => rfl⟩
      · exact .inl ⟨_, fun source => rfl⟩
      · exact .inl ⟨_, fun source => rfl⟩
      · exact .inl ⟨_, fun source => rfl⟩
  | _ => exact .inl ⟨_, fun source => rfl⟩

end PredicateInverter

end RecursiveQuery
