import RecursiveQuery.Proofs.KnownPlan
import RecursiveQuery.Proofs.StepRows

/-!
# Bodies of steps

The step function of a fixpoint appends one comprehension for each recursive
arm.  Such a comprehension computes its arm exactly, where the variables of the
recursive call are different, sources mention variables only behind the clauses
that produce them, and rows have neither bags nor functions.
-/

namespace RecursiveQuery

theorem StepClause.areWithin_of_forall {known : Name → Prop}
    {clauses : List StepClause} (all : ∀ name, known name) :
    areWithin known clauses := by
  induction clauses generalizing known with
  | nil => trivial
  | cons clause clauses induction =>
      cases clause with
      | scan generator residual =>
          exact ⟨fun name _ => all name,
            fun condition _ name _ => .inl (all name),
            induction fun name => .inl (all name)⟩
      | filter condition => exact ⟨fun name _ => all name, induction all⟩
      | recursive function argument =>
          exact induction fun name => .inl (all name)

namespace StepCase

/-- Wherever a body evaluates, its rows are the rows of goals under exactly
those values of the variables of a step for which all clauses of the step
hold. -/
def IsComputedBy (program : Program) (limits : Limits) (goals : List Name)
    (increment : Name) (case : StepCase) (body : Expr) : Prop :=
  ∀ (env : Env) (newKind kind : CollectionKind) (new rows : List Value)
    (evaluation check : Nat),
    env.IsFunctionFree → env.lookup increment = some (.collection newKind new) →
    (∀ row ∈ new, row.toExpr?.isSome = true) →
    (∀ generator residual, .scan generator residual ∈ case.clauses →
      ∀ inner, env.ExtendsPlainly inner → ∀ kind rows,
        program.evaluate limits (Session.root check) inner generator.source =
          .ok (.collection kind rows) →
            ∀ row ∈ rows, row.toExpr?.isSome = true) →
    program.evaluate limits (Session.root evaluation) env body =
      .ok (.collection kind rows) →
    ∀ row, row ∈ rows ↔ ∃ chosen : Env,
      (chosen.Assigns fun name =>
        (case.clauses.flatMap StepClause.produced).contains name) ∧
      (∀ clause ∈ case.clauses,
        clause.HoldsIn (program.evaluate limits (Session.root check)) new
          (chosen ++ env)) ∧
      program.evaluate limits (Session.root check) (chosen ++ env)
        (.row goals) = .ok row

theorem isComputedBy_of_realization {program : Program} {limits : Limits}
    {goals names : List Name} {increment : Name} {case : StepCase}
    {parts : List Generator} {conditions : List Expr}
    {aliases : List (Name × Name)}
    (extent : ∀ values, limits.extent = some values → ∀ value ∈ values,
      value.isFunctionFree = true)
    (realization : StepClause.Realization increment names case.clauses parts
      conditions aliases)
    (covered : goals ⊆ case.clauses.flatMap StepClause.produced) :
    case.IsComputedBy program limits goals increment
      (.collect
        (.filtered (parts.map Generator.scan) conditions (.row goals))) := by
  intro env newKind kind new rows evaluation check free supplied newPlain
    sourcesPlain evaluated row
  obtain ⟨session, loaded, evaluated⟩ := Outcome.bind_eq_ok_iff.mp evaluated
  have evaluate : program.evaluate limits (Session.root check) =
      session.evalIn (Session.root check) := by
    funext env expr
    rw [Program.evaluate, loaded]
    rfl
  rw [evaluate] at sourcesPlain ⊢
  have uniform : session.Uniform := Session.uniform_of_load extent loaded
  have plain : ∀ generator residual, .scan generator residual ∈ case.clauses →
      session.YieldsPlainly env generator.source :=
        fun generator residual isClause =>
    Session.yieldsPlainly_of_root uniform free
      (sourcesPlain generator residual isClause)
  have runs := realization.runs plain supplied newPlain
  constructor
  · intro member
    obtain ⟨chosen, assigns, _, holds, evaluatedRow⟩ :=
      runs.exists_chosen_of_mem uniform free
      (.root evaluation) (.root check) covered evaluated member
    exact ⟨chosen, assigns, holds, evaluatedRow⟩
  · intro satisfied
    obtain ⟨chosen, assigns, holds, evaluatedRow⟩ := satisfied
    exact runs.mem_of_holdsIn uniform free (.root evaluation) (.root check)
      covered evaluated assigns holds evaluatedRow

end StepCase

namespace Recursion

variable {program : Program} {limits : Limits} {settings : Settings}
  {recursion : Recursion}
variable {supply : NameSupply}

/-- The call that a fixpoint scans. -/
abbrev iteration (recursion : Recursion) (found increment : Name)
    (bodies : List Expr) : Expr :=
  .apply (.apply (.var (Builtin.iterate recursion.base.generator.kind).name)
    recursion.baseRelation)
    (.lambda (.tuple [.var found, .var increment]) (concatenated bodies))

/-- What holds for each body of a step holds for all bodies. -/
theorem bodies_ensure {holds : StepCase → Expr → Prop} {reserved : List Name}
    {found increment : Name} {cases : List StepCase}
    (each : ∀ case ∈ cases, ∀ supply : NameSupply, reserved ⊆ supply.used →
      (case.body (.row recursion.goals) found increment
        (recursion.replacedSource? settings case)).Ensures supply fun body _ =>
        holds case body)
    (areReserved : reserved ⊆ supply.used) :
    (recursion.bodies settings found increment cases).Ensures supply
      fun bodies _ => List.Forall₂ holds cases bodies := by
  induction cases generalizing supply with
  | nil => exact .pure .nil
  | cons case cases induction =>
      rw [List.forall_mem_cons] at each
      rw [bodies]
      apply Naming.Ensures.bind (each.1 supply areReserved)
      intro body later grown isBody
      apply Naming.Ensures.bind
        (induction each.2 (List.Subset.trans areReserved grown))
      intro bodies last _ areBodies
      exact .pure (.cons isBody areBodies)

/-- What holds for the body of each step holds for the step function of the
fixpoint. -/
theorem plan_ensures {holds : Name → Name → StepCase → Expr → Prop}
    {supply : NameSupply} (each : ∀ found increment, found ∉ supply.used →
      increment ∉ found :: supply.used →
      ∀ case ∈ recursion.steps, ∀ later : NameSupply,
        increment :: found :: supply.used ⊆ later.used →
        (case.body (.row recursion.goals) found increment
          (recursion.replacedSource? settings case)).Ensures later fun body _ =>
          holds found increment case body) :
    (recursion.plan settings).Ensures supply fun fixpoint _ =>
    ∃ found increment bodies,
      found ∉ supply.used ∧ increment ∉ found :: supply.used ∧
      fixpoint.source = recursion.iteration found increment bodies ∧
      List.Forall₂ (holds found increment) recursion.steps bodies := by
  apply Naming.Ensures.bind (supply.acquire_spec "old")
  intro found second grown drawn
  apply Naming.Ensures.bind (second.acquire_spec "new")
  intro increment third grownThird drawnThird
  have reserved : found :: supply.used ⊆ second.used :=
    List.cons_subset.mpr ⟨drawn.2, grown⟩
  have incrementNew : increment ∉ found :: supply.used := fun member =>
    drawnThird.1 (reserved member)
  have areReserved : increment :: found :: supply.used ⊆ third.used :=
    List.cons_subset.mpr ⟨drawnThird.2, List.Subset.trans reserved grownThird⟩
  apply Naming.Ensures.bind
    (bodies_ensure (each found increment drawn.1 incrementNew) areReserved)
  intro bodies last _ areBodies
  exact .pure ⟨found, increment, bodies, drawn.1, incrementNew, rfl, areBodies⟩

/-- Each step of a fixpoint computes its recursive arm. -/
theorem plan_computes
    (extent : ∀ values, limits.extent = some values → ∀ value ∈ values,
      value.isFunctionFree = true) (joins : settings.joinSource = .stepRelation)
    (each : ∀ case ∈ recursion.steps,
      (∀ clause ∈ case.clauses, clause.IsAmong supply.used) ∧
      StepClause.areNew [] case.clauses ∧
      recursion.goals ⊆ case.clauses.flatMap StepClause.produced) :
    (recursion.plan settings).Ensures supply fun fixpoint _ =>
    ∃ found increment bodies, fixpoint.source =
      recursion.iteration found increment bodies ∧
      List.Forall₂ (fun case body =>
        case.clauses.all StepClause.isLinear = true →
        StepClause.areInOrder [] case.clauses = true →
        case.IsComputedBy program limits recursion.goals increment body)
        recursion.steps bodies := by
  have nothing : recursion.accumulatedSource? settings = none := by
    rw [accumulatedSource?, joins]
  apply (@plan_ensures settings recursion (fun _ increment case body =>
    case.clauses.all StepClause.isLinear = true →
      StepClause.areInOrder [] case.clauses = true →
      case.IsComputedBy program limits recursion.goals increment body)
      supply _).mono
  · intro fixpoint later _ planned
    obtain ⟨found, increment, bodies, _, _, isFixpoint, compute⟩ := planned
    exact ⟨found, increment, bodies, isFixpoint, compute⟩
  · intro found increment _ incrementNew case isStep later reserved
    obtain ⟨among, areNew, covered⟩ := each case isStep
    have usedReserved : supply.used ⊆ later.used := fun name isUsed =>
      reserved (List.mem_cons_of_mem _ (List.mem_cons_of_mem _ isUsed))
    rw [replacedSource?, nothing, ite_self]
    by_cases conditions : case.clauses.all StepClause.isLinear = true ∧
        StepClause.areInOrder [] case.clauses = true
    · apply
        (StepCase.body_realizes among areNew (List.all_eq_true.mp conditions.1)
        conditions.2 usedReserved (reserved List.mem_cons_self)
        (fun isName => incrementNew (List.mem_cons_of_mem _ isName)) _
        found).mono
      intro body last _ realized _ _
      obtain ⟨parts, tests, aliases, isBody, realization⟩ := realized
      subst isBody
      exact StepCase.isComputedBy_of_realization extent realization covered
    · have grows := @StepCase.body_known found increment (fun _ => True) case _
        (StepClause.areWithin_of_forall fun _ => trivial) covered trivial
        trivial none later
      apply grows.mono
      intro body last _ _ linear inOrder
      exact absurd ⟨linear, inOrder⟩ conditions

/-- Each step of the fixpoint of a predicate computes its recursive arm exactly:
the rows of the step are those of the goals under the values for which all
clauses of the arm hold.  The variables of the recursive call are different, and
sources mention variables only behind the clauses that produce them. -/
theorem step_rows_iff_clauses_hold {program : Program} {limits : Limits}
    {settings : Settings} {active goals : List Name} {scope : Scope}
    {predicate : Expr} {supply later : NameSupply} {tree : AnalysisTree}
    {recursion : Recursion}
    (extent : ∀ values, limits.extent = some values → ∀ value ∈ values,
      value.isFunctionFree = true)
    (declared : program.names ⊆ supply.used)
    (reserved : predicate.allNames ⊆ supply.used)
    (among : scope.BindsAmong supply.used)
    (built :
      (AnalysisTree.build program (Inversion.base program) active scope
        predicate).run
      supply = (tree, later))
    (read : ofTree settings goals tree = .ok recursion)
    (joins : settings.joinSource = .stepRelation) :
    ∃ found increment bodies,
      ((recursion.plan settings).run later).1.source = .apply
        (.apply (.var (Builtin.iterate recursion.base.generator.kind).name)
          recursion.baseRelation)
        (.lambda (.tuple [.var found, .var increment]) (concatenated bodies)) ∧
      List.Forall₂ (fun case body =>
        case.clauses.all StepClause.isLinear = true →
        StepClause.areInOrder [] case.clauses = true →
        case.IsComputedBy program limits goals increment body) recursion.steps
        bodies := by
  have isNew : tree.IsNew later.used scope :=
    ((AnalysisTree.buildWithin_isNew (Inversion.within_isNew _ active)
      predicate.size declared reserved among).of_run built).2
  obtain ⟨sameGoals, _, fromArms⟩ := ofTree_cases read
  subst sameGoals
  apply (plan_computes extent joins _).2
  intro case isStep
  obtain ⟨clausesAmong, areNew⟩ := ofTree_isNew isNew read case isStep
  obtain ⟨arm, _, readStep⟩ := fromArms case isStep
  obtain ⟨_, _, _, _, covered⟩ := StepCase.ofTree_cases readStep
  exact ⟨clausesAmong, areNew, covered⟩

end Recursion

theorem Refusal.eq_ok_of_toOption {α : Type} {outcome : Except Refusal α}
    {value : α} (found : outcome.toOption = some value) :
    outcome = .ok value := by
  cases outcome with
  | error refusal => cases found
  | ok other =>
      cases found
      rfl

namespace Recursion

variable {env : Env} {rows : List Value}

/-- Edges that lead from one to four. -/
def chainOfEdges : Program :=
  ⟨[.val "b" none (some (.list
    [.tuple [.int 1, .int 2], .tuple [.int 2, .int 3],
      .tuple [.int 3, .int 4]]))]⟩

def edge (first second : Name) : Expr :=
  .binary .member (.tuple [.var first, .var second]) (.var "b")

def edges (first second : Name) : Generator :=
  ⟨.tuple [.var first, .var second], .var "b", .list, .finite⟩

/-- Scans have the declared edges. -/
def isOverEdges : StepClause → Bool
  | .scan generator _ => generator.source = .var "b"
  | .filter _ => true
  | .recursive _ _ => true

def path (first second : Name) : Expr :=
  .apply (.var "path") (.tuple [.var first, .var second])

/-- Paths are edges, and the pairs for which clauses hold with some values of
further variables. -/
def pathsBy (names : List Name) (clauses : List Expr) : Expr :=
  .orElse (edge "x" "y")
    (.existence ⟨names.map fun name => ⟨.var name, none⟩, clauses.map .filter⟩)

/-- A predicate of paths has one step, and its fixpoint has this body. -/
def HasStep (program : Program) (predicate : Expr) (case : StepCase)
    (found increment : Name) (body : Expr) : Prop :=
  let built := (AnalysisTree.build program (Inversion.base program) ["path"]
    (.initial ["x", "y"] []) predicate).run
    (.reserving (program.names ++ predicate.allNames))
  let recursion : Recursion := ⟨["x", "y"], ⟨edges "x" "y", []⟩, [case]⟩
  (ofTree {} ["x", "y"] built.1).toOption = some recursion ∧
    ((recursion.plan {}).run built.2).1.source =
      .apply (.apply (.var "List.iterate") (.var "b"))
        (.lambda (.tuple [.var found, .var increment]) body)

instance (program : Program) (predicate : Expr) (case : StepCase)
    (found increment : Name) (body : Expr) :
    Decidable (HasStep program predicate case found increment body) :=
  inferInstanceAs (Decidable (_ ∧ _))

/-- Paths that grow at both ends, around a call whose first end is below its
last one. -/
def growingPath : Expr :=
  pathsBy ["z", "w"] [edge "x" "z", path "z" "w", edge "w" "y",
    .binary .lt (.var "z") (.var "w")]

def growingStep : StepCase where
  clauses :=
    [.scan (edges "x" "z") [], .recursive "path" (.tuple [.var "z", .var "w"]),
      .scan (edges "w_1" "y") [.equals (.var "w_1") (.var "w")],
      .filter (.binary .lt (.var "z") (.var "w"))]
  joins := ["w", "z"]

def growingBody : Expr :=
  .collect (.filtered
    [(edges "x" "z").scan, ⟨.tuple [.var "z_1", .var "w"], some (.var "new")⟩,
      (edges "w_1" "y").scan]
    [.equals (.var "z") (.var "z_1"), .equals (.var "w_1") (.var "w"),
      .binary .lt (.var "z") (.var "w")]
    (.row ["x", "y"]))

/-- The declared edges have neither bags nor functions. -/
theorem chainOfEdges_plain {inner : Env} (unbound : env.lookup "b" = none)
    (extended : env.ExtendsPlainly inner) {number : Nat} {kind : CollectionKind}
    (evaluated : chainOfEdges.evaluate {} (Session.root number) inner
      (.var "b") = .ok (.collection kind rows)) :
    ∀ row ∈ rows, row.toExpr?.isSome = true := by
  obtain ⟨session, loaded, looked⟩ := Outcome.bind_eq_ok_iff.mp evaluated
  let rows : List Value :=
    [.tuple [.int 1, .int 2], .tuple [.int 2, .int 3], .tuple [.int 3, .int 4]]
  have isSession : Session.load chainOfEdges {} =
      .ok ((Session.empty {}).define "b" (.collection .list rows)) := by
    rfl
  cases isSession.symm.trans loaded
  have declared :
    ((Session.empty {}).define "b" (.collection .list rows)).lookup env "b" =
      .ok (.collection .list rows) := by
    rw [Session.lookup, unbound]
    rfl
  exact Session.yieldsPlainly_var declared (by decide) inner extended _ kind _
    (.root number) looked

/-- A step over the declared edges relates its rows to its clauses for each
increment. -/
theorem row_iff_of_isComputedBy {case : StepCase} {body : Expr}
    (computed : case.IsComputedBy chainOfEdges {} ["x", "y"] "new" body)
    (overEdges : case.clauses.all isOverEdges = true) {new : List Value}
    (plain : ∀ row ∈ new, row.toExpr?.isSome = true)
    (evaluated : chainOfEdges.evaluate {} (Session.root 0)
      [("new", .collection .list new)] body =
      .ok (.collection .list rows)) (row : Value) :
    row ∈ rows ↔ ∃ chosen : Env,
      (chosen.Assigns fun name =>
        (case.clauses.flatMap StepClause.produced).contains name) ∧
      (∀ clause ∈ case.clauses,
        clause.HoldsIn (chainOfEdges.evaluate {} (Session.root 1)) new
        (chosen ++ [("new", .collection .list new)])) ∧
      chainOfEdges.evaluate {} (Session.root 1)
        (chosen ++ [("new", .collection .list new)])
        (.row ["x", "y"]) = .ok row := by
  apply computed _ .list .list new rows 0 1 _ rfl plain _ evaluated
  · intro name value found
    cases List.mem_singleton.mp (NameMap.mem_of_lookup found)
    exact Value.areFunctionFree_iff.mpr fun item member =>
      Value.isFunctionFree_of_plain (plain item member)
  · intro generator residual isScan inner extended kind others scanned
    have isEdges : generator.source = .var "b" :=
      of_decide_eq_true (List.all_eq_true.mp overEdges _ isScan)
    rw [isEdges] at scanned
    exact chainOfEdges_plain rfl extended scanned

/-- A path from two to three grows to one from one to four. -/
theorem step_rows_iff_clauses_hold_growing :
    let new : List Value := [.tuple [.int 2, .int 3]]
    let env : Env := [("new", .collection .list new)]
    HasStep chainOfEdges growingPath growingStep "old" "new" growingBody ∧
      chainOfEdges.evaluate {} (Session.root 0) env growingBody =
        .ok (.collection .list [.tuple [.int 1, .int 4]]) ∧
      ∃ chosen : Env,
        (chosen.Assigns fun name =>
          ["x", "z", "z", "w", "w_1", "y"].contains name) ∧
        (∀ clause ∈ growingStep.clauses,
          clause.HoldsIn (chainOfEdges.evaluate {} (Session.root 1)) new
            (chosen ++ env)) ∧
        chainOfEdges.evaluate {} (Session.root 1) (chosen ++ env)
          (.row ["x", "y"]) = .ok (.tuple [.int 1, .int 4]) := by
  intro new env
  have hasStep :
    HasStep chainOfEdges growingPath growingStep "old" "new" growingBody := by
    decide +kernel
  have noExtent : ∀ values, ({} : Limits).extent = some values →
    ∀ value ∈ values, value.isFunctionFree = true := by
    intro values absurdity
    cases absurdity
  have among (names : List Name) :
    (Scope.initial ["x", "y"] []).BindsAmong names := by
    intro name absurdity
    cases absurdity
  obtain ⟨found, increment, bodies, isPlan, computed⟩ :=
    @step_rows_iff_clauses_hold chainOfEdges {} {} ["path"] ["x", "y"]
      (.initial ["x", "y"] [])
      growingPath _ _ _ _ noExtent (List.subset_append_left _ _)
        (List.subset_append_right _ _)
      (among _) (Prod.eta _).symm (Refusal.eq_ok_of_toOption hasStep.1) rfl
  have isPlan := hasStep.2.symm.trans isPlan
  cases computed with
  | @cons _ body _ rest first others =>
      cases others
      injection isPlan with _ isStep
      injection isStep with isParam isBody
      cases isParam
      subst isBody
      refine ⟨hasStep, rfl, ?_⟩
      exact (row_iff_of_isComputedBy (first (by decide) (by decide)) (by decide)
        (by decide) rfl
        (.tuple [.int 1, .int 4])).mp (List.mem_singleton.mpr rfl)

/-- Paths between edges that are joined by a path from a node to itself. -/
def loopingPath : Expr :=
  pathsBy ["z"] [edge "x" "z", path "z" "z", edge "z" "y"]

def loopingStep : StepCase where
  clauses :=
    [.scan (edges "x" "z") [], .recursive "path" (.tuple [.var "z", .var "z"]),
      .scan (edges "z_1" "y") [.equals (.var "z_1") (.var "z")]]
  joins := ["z"]

def loopingBody : Expr :=
  .collect (.filtered
    [(edges "x" "z").scan, ⟨.tuple [.var "z_2", .var "z_2"], some (.var "new")⟩,
      (edges "z_1" "y").scan]
    [.equals (.var "z") (.var "z_2"), .equals (.var "z_1") (.var "z")]
      (.row ["x", "y"]))

/-- Where a call repeats a variable, only the last of its values is compared. -/
theorem loopingStep_not_isComputedBy :
    ¬ loopingStep.IsComputedBy chainOfEdges {} ["x", "y"] "new"
      loopingBody := by
  intro computed
  let new : List Value := [.tuple [.int 1, .int 2]]
  have evaluated :
    chainOfEdges.evaluate {} (Session.root 0) [("new", .collection .list new)]
      loopingBody = .ok (.collection .list [.tuple [.int 1, .int 3]]) := by
    rfl
  obtain ⟨chosen, _, holds, _⟩ :=
    (row_iff_of_isComputedBy computed (by decide) (by decide)
    evaluated (.tuple [.int 1, .int 3])).mp (List.mem_singleton.mpr rfl)
  obtain ⟨row, isNew, read⟩ :=
    holds (.recursive "path" (.tuple [.var "z", .var "z"]))
    (List.mem_cons_of_mem _ List.mem_cons_self)
  rw [List.mem_singleton.mp isNew] at read
  obtain ⟨isOne, isTwo, _⟩ := read
  cases isOne.symm.trans isTwo

/-- Paths of two edges whose middle node has a path to the declared edges. -/
def hidingPath : Expr :=
  pathsBy ["z"] [edge "x" "z", edge "z" "y", path "z" "b"]

def hidingStep : StepCase where
  clauses :=
    [.scan (edges "x" "z") [],
      .scan (edges "z_1" "y") [.equals (.var "z_1") (.var "z")],
      .recursive "path" (.tuple [.var "z", .var "b"])]
  joins := ["z"]

def hidingBody : Expr :=
  .collect (.filtered
    [(edges "x" "z").scan, (edges "z_1" "y").scan,
      ⟨.tuple [.var "z_2", .var "b"], some (.var "new")⟩]
    [.equals (.var "z_1") (.var "z"), .equals (.var "z") (.var "z_2")]
      (.row ["x", "y"]))

/-- Where a call mentions a declared name, its values take the place of the
declaration. -/
theorem hidingStep_not_isComputedBy :
    ¬ hidingStep.IsComputedBy chainOfEdges {} ["x", "y"] "new" hidingBody := by
  intro computed
  let new : List Value := [.tuple [.int 2, .int 9]]
  have evaluated :
    chainOfEdges.evaluate {} (Session.root 0) [("new", .collection .list new)]
      hidingBody = .ok (.collection .list [.tuple [.int 1, .int 3]]) := by
    rfl
  obtain ⟨chosen, _, holds, _⟩ :=
    (row_iff_of_isComputedBy computed (by decide) (by decide)
    evaluated (.tuple [.int 1, .int 3])).mp (List.mem_singleton.mpr rfl)
  obtain ⟨row, isNew, read⟩ :=
    holds (.recursive "path" (.tuple [.var "z", .var "b"]))
    (List.mem_cons_of_mem _ (List.mem_cons_of_mem _ List.mem_cons_self))
  rw [List.mem_singleton.mp isNew] at read
  obtain ⟨_, isNine, _⟩ := read
  obtain ⟨⟨kind, rows, scanned, _⟩, _⟩ :=
    holds (.scan (edges "x" "z") []) List.mem_cons_self
  obtain ⟨session, _, looked⟩ := Outcome.bind_eq_ok_iff.mp scanned
  cases (Session.lookup_of_env isNine).symm.trans looked

/-- Two nodes with one bag each. -/
def bagsOfNodes : Program :=
  ⟨[.val "s" (some (.bag .int)) (some (.list [.int 1, .int 2])),
    .val "b" none
      (some (.list [.tuple [.int 0, .var "s"], .tuple [.int 3, .var "s"]]))]⟩

/-- The rows of a bag, put behind a node in their order, are not these. -/
def otherOrder : Expr :=
  .binary .ne
    (.apply (.apply (.var "List.iterate") (.list [.var "x"]))
      (.lambda (.tuple [.var "old", .var "new"]) (.var "z")))
    (.list [.int 0, .int 1, .int 2])

def orderedPath : Expr :=
  pathsBy ["z"] [edge "x" "z", path "z" "y", otherOrder]

def orderedStep : StepCase where
  clauses :=
    [.scan (edges "x" "z") [], .recursive "path" (.tuple [.var "z", .var "y"]),
      .filter otherOrder]
  joins := ["z"]

def orderedBody : Expr :=
  .collect (.filtered
    [(edges "x" "z").scan, ⟨.tuple [.var "z_1", .var "y"], some (.var "new_1")⟩]
    [.equals (.var "z") (.var "z_1"), otherOrder] (.row ["x", "y"]))

/-- Rows with a bag that an increment has in another order. -/
def reordered : List Value :=
  [.tuple [.collection .bag [.int 2, .int 1], .int 5]]

/-- Equal bags in different orders are no common value of a scan and the
increment. -/
theorem orderedStep_not_holdsIn (unbound : env.lookup "b" = none) :
    ¬ ∀ clause ∈ orderedStep.clauses,
      clause.HoldsIn (bagsOfNodes.evaluate {} (Session.root 1)) reordered
        env := by
  intro holds
  have declared : bagsOfNodes.evaluate {} (Session.root 1) env (.var "b") =
      .ok (.collection .list
        [.tuple [.int 0, .collection .bag [.int 1, .int 2]],
          .tuple [.int 3, .collection .bag [.int 1, .int 2]]]) := by
    obtain ⟨session, loaded, isGlobal⟩ : ∃ session,
      Session.load bagsOfNodes {} = .ok session ∧ session.globals.lookup "b" =
          some (.collection .list
            [.tuple [.int 0, .collection .bag [.int 1, .int 2]],
            .tuple [.int 3, .collection .bag [.int 1, .int 2]]]) :=
      ⟨_, rfl, rfl⟩
    rw [Program.evaluate, loaded]
    change session.lookup env "b" = _
    rw [Session.lookup, unbound, isGlobal]
    rfl
  obtain ⟨⟨kind, rows, evaluated, row, member, read⟩, _⟩ :=
    holds (.scan (edges "x" "z") []) List.mem_cons_self
  cases declared.symm.trans evaluated
  obtain ⟨other, isNew, readNew⟩ :=
    holds (.recursive "path" (.tuple [.var "z", .var "y"]))
    (List.mem_cons_of_mem _ List.mem_cons_self)
  rw [List.mem_singleton.mp isNew] at readNew
  obtain ⟨isOther, _⟩ := readNew
  rcases List.mem_cons.mp member with isFirst | isSecond
  · rw [isFirst] at read
    obtain ⟨_, isBag, _⟩ := read
    cases isBag.symm.trans isOther
  · rw [List.mem_singleton.mp isSecond] at read
    obtain ⟨_, isBag, _⟩ := read
    cases isBag.symm.trans isOther

/-- Steps have rows for which their clauses do not hold, where a call repeats a
variable, and where it mentions a declared name.  Over bags, a step has a row
for which its clauses hold only up to the order of a bag, and lacks another
one. -/
theorem step_rows_miss_clauses :
    (HasStep chainOfEdges loopingPath loopingStep "old" "new" loopingBody ∧
      ¬ loopingStep.IsComputedBy chainOfEdges {} ["x", "y"] "new" loopingBody) ∧
    (HasStep chainOfEdges hidingPath hidingStep "old" "new" hidingBody ∧
      ¬ hidingStep.IsComputedBy chainOfEdges {} ["x", "y"] "new" hidingBody) ∧
    let env : Env := [("new_1", .collection .list reordered)]
    HasStep bagsOfNodes orderedPath orderedStep "old_1" "new_1" orderedBody ∧
      bagsOfNodes.evaluate {} (Session.root 0) env orderedBody =
        .ok (.collection .list [.tuple [.int 3, .int 5]]) ∧
      (∀ chosen : Env,
        (chosen.Assigns fun name => ["x", "z", "z", "y"].contains name) →
        ¬ ∀ clause ∈ orderedStep.clauses,
          clause.HoldsIn (bagsOfNodes.evaluate {} (Session.root 1)) reordered
            (chosen ++ env)) ∧
      ∃ chosen : Env,
      (chosen.Assigns fun name => ["x", "z", "z", "y"].contains name) ∧
        (∀ clause ∈ [edge "x" "z",
            .binary .member (.tuple [.var "z", .var "y"]) (.var "new_1"),
            otherOrder],
          bagsOfNodes.evaluate {} (Session.root 1) (chosen ++ env) clause =
            .ok (.bool true)) ∧
        bagsOfNodes.evaluate {} (Session.root 1) (chosen ++ env)
          (.row ["x", "y"]) = .ok (.tuple [.int 0, .int 5]) := by
  refine ⟨⟨by decide +kernel, loopingStep_not_isComputedBy⟩,
    ⟨by decide +kernel, hidingStep_not_isComputedBy⟩, by
      decide +kernel, rfl, ?_, ?_⟩
  · intro chosen assigns
    apply orderedStep_not_holdsIn
    rw [List.lookup_append, assigns.lookup_eq_none (by decide)]
    rfl
  · refine ⟨[("x", .int 0), ("z", .collection .bag [.int 2, .int 1]),
      ("y", .int 5)], ?_, ?_, rfl⟩
    · refine .of_entries (fun name => ?_) (by decide)
      simp only [List.any_cons, List.any_nil, List.contains_cons,
        List.contains_nil, Bool.or_self_left]
    · intro clause isClause
      rcases List.mem_cons.mp isClause with isFirst | isLater
      · rw [isFirst]
        rfl
      · rcases List.mem_cons.mp isLater with isSecond | isThird
        · rw [isSecond]
          rfl
        · rw [List.mem_singleton.mp isThird]
          rfl

end Recursion

end RecursiveQuery
