import RecursiveQuery.Proofs.DrawnRows
import RecursiveQuery.Proofs.JoinSources

/-!
# Fixpoints that are reached

A fixpoint whose steps only select values has all its rows over a finite
universe: the globals, the base rows and what the sources of its steps have,
with the parts of all these. So it is reached after finitely many rounds, or a
round fails.  A step that builds a new value from the values of its recursive
call has no such universe, and need not come to an end.
-/

namespace RecursiveQuery

open Outcome (Concludes)

variable {old new : List Value}

/-- What each of some items has above enough values, all of them have above the
same values. -/
theorem Value.exists_common {α : Type} {items : List α}
    {holds : α → List Value → Prop}
    (mono : ∀ item given more, given ⊆ more → holds item given →
      holds item more) (each : ∀ item ∈ items, ∃ given, holds item given) :
    ∃ given, ∀ item ∈ items, holds item given := by
  induction items with
  | nil => exact ⟨[], List.forall_mem_nil _⟩
  | cons item items induction =>
      rw [List.forall_mem_cons] at each
      obtain ⟨own, ownHolds⟩ := each.1
      obtain ⟨others, othersHold⟩ := induction each.2
      refine ⟨own ++ others, ?_⟩
      rw [List.forall_mem_cons]
      refine ⟨mono item own _ (List.subset_append_left _ _) ownHolds, ?_⟩
      intro other isOther
      exact mono other others _ (List.subset_append_right _ _)
        (othersHold other isOther)

/-- What a clause with another source scans. -/
theorem StepClause.scanned_scanning {increment : Name} {source : Expr → Expr}
    {clause : StepClause} {pattern : Pattern} {expr : Expr}
    (isScanned : (clause.scanning source).scanned increment =
      some (pattern, expr)) :
    (∃ generator residual, clause = .scan generator residual ∧
      pattern = generator.pattern ∧ expr = source generator.source) ∨
    ∃ function, clause = .recursive function pattern ∧
      expr = .var increment := by
  cases clause with
  | scan generator residual =>
      cases isScanned
      exact .inl ⟨generator, residual, rfl, rfl, rfl⟩
  | filter condition => cases isScanned
  | recursive function argument =>
      cases isScanned
      exact .inr ⟨function, rfl, rfl⟩

/-- The only scan of a step that composes paths takes its rows apart. -/
theorem StepCase.splits_of_composesPaths {case : StepCase} {goals : List Name}
    (composes : case.composesPaths goals = true) {generator : Generator}
    {residual : List Expr} (isScan : .scan generator residual ∈ case.clauses)
    (count : Nat) : generator.pattern.Splits count := by
  obtain ⟨other, function, argument, _, _, edge, _, isStep, _, isEdge, _⟩ :=
    composesPaths_cases composes
  have same : generator = other := by
    rcases isStep with isStep | isStep
    · rw [isStep] at isScan
      exact (by simpa using isScan : generator = other ∧ residual = []).1
    · rw [isStep] at isScan
      exact (by simpa using isScan : generator = other ∧ residual = []).1
  intro name isVar
  rw [same, eq_of_pair? isEdge] at isVar
  cases isVar

namespace Recursion

variable {recursion : Recursion} {settings : Settings} {session : Session}
  {names : List Name}
  {given : List Value}

/-- No step builds new values: sources select their rows, and recursive calls
take rows apart. -/
structure Selects (session : Session) (recursion : Recursion) : Prop where
  sources : ∀ case ∈ recursion.steps, ∀ generator residual,
    .scan generator residual ∈ case.clauses →
      generator.source.Selects session
        (case.clauses.flatMap StepClause.produced)
  calls : ∀ case ∈ recursion.steps, ∀ function argument,
    .recursive function argument ∈ case.clauses →
      argument.Splits recursion.goals.length

/-- The sources of all steps stay inside each universe above some values. -/
def YieldWithin (session : Session) (given : List Value)
    (recursion : Recursion) : Prop :=
  ∀ case ∈ recursion.steps, ∀ clause ∈ case.clauses, ∀ generator residual,
    clause = .scan generator residual →
      generator.source.YieldsWithin session
        (case.clauses.flatMap StepClause.produced) given

theorem Selects.exists_yieldWithin (selects : recursion.Selects session)
    (uniform : session.Uniform) :
    ∃ given, recursion.YieldWithin session given := by
  apply Value.exists_common
  · intro case given more subset within clause isClause generator
      residual isScan
    exact (within clause isClause generator residual isScan).mono subset
  · intro case isStep
    apply Value.exists_common
    · intro clause given more subset within generator residual isScan
      exact (within generator residual isScan).mono subset
    · intro clause isClause
      cases clause with
      | scan generator residual =>
          obtain ⟨given, within⟩ :=
            (selects.sources case isStep generator residual
              isClause).exists_yieldsWithin uniform
          refine ⟨given, ?_⟩
          intro other others isScan
          cases isScan
          exact within
      | filter condition | recursive function argument =>
          refine ⟨[], ?_⟩
          intro generator residual absurdity
          cases absurdity

/-- The clauses of a step as the fixpoint scans them stay inside, whatever they
scan. -/
theorem Selects.stayWithin (selects : recursion.Selects session)
    (within : recursion.YieldWithin session given) {case : StepCase}
    (isStep : case ∈ recursion.steps)
    (among : ∀ clause ∈ case.clauses, clause.IsAmong names)
    (settings : Settings) (found increment : Name) :
    StepClause.StayWithin session names given recursion.goals.length
      [found, increment] increment
      (recursion.stepOf settings found case).clauses := by
  constructor
  · intro clause isClause pattern source isScanned
    obtain ⟨original, isOriginal, same⟩ := List.mem_map.mp isClause
    subst same
    rcases StepClause.scanned_scanning isScanned with
      ⟨generator, residual, isScan, isPattern, _⟩ | ⟨function, isRecursive, _⟩
    · subst isScan
      subst isPattern
      exact (among _ isOriginal).1
    · subst isRecursive
      exact among _ isOriginal
  · intro clause isClause pattern source isScanned
    obtain ⟨original, isOriginal, same⟩ := List.mem_map.mp isClause
    subst same
    rcases StepClause.scanned_scanning isScanned with
      ⟨generator, residual, isScan, isPattern, isSource⟩ |
      ⟨function, isRecursive, isSource⟩
    · subst isScan
      subst isPattern
      have own : generator.source.Feeds session names
          ((recursion.stepOf settings found case).clauses.flatMap
            StepClause.produced) given
          recursion.goals.length [found, increment] generator.pattern := by
        rw [stepOf, StepCase.scanning, StepClause.flatMap_produced_scanning]
        exact .inl ⟨(among _ isOriginal).2.1,
          within case isStep _ isOriginal generator residual rfl⟩
      -- Only steps that compose paths scan the rows found so far.
      by_cases composes : case.composesPaths recursion.goals = true
      · rcases StepCase.sourceOf_cases found (recursion.replacedSource? settings
          case) generator.source with same | isFound
        · rwa [isSource, same]
        · exact .inr ⟨found, List.mem_cons_self, isSource.trans isFound,
            StepCase.splits_of_composesPaths composes isOriginal _⟩
      · rwa [isSource, replacedSource?, if_neg composes, StepCase.sourceOf_none]
    · subst isRecursive
      exact .inr
        ⟨increment, List.mem_cons_of_mem _ List.mem_cons_self, isSource,
        selects.calls case isStep function pattern isOriginal⟩

variable {found increment : Name} {bodies : List Expr}

/-- The rows of a round consist of values inside the universe, if those before
do. -/
theorem Selects.isRowOf_of_rowsOf (selects : recursion.Selects session)
    (within : recursion.YieldWithin session given)
    (drawn : recursion.IsDrawn settings names found increment bodies)
    {inside : Value → Prop}
    (isUniverse : Value.IsUniverse (session.globalValues ++ given) inside)
    {kind : CollectionKind} {rows : List Value}
    (areRows : ∀ row ∈ old, row.IsRowOf inside recursion.goals.length)
    (included : new ⊆ old)
    (rowsOf : session.RowsOf (Env.ofRound kind found increment old new)
      bodies rows) :
    ∀ row ∈ rows, row.IsRowOf inside recursion.goals.length := by
  have foundNew := drawn.foundNew
  have incrementNew := drawn.incrementNew
  rw [List.mem_cons, not_or] at incrementNew
  intro row member
  obtain ⟨body, isBody, site, bodyKind, part, started, evaluated, inPart⟩ :=
    rowsOf.every row member
  obtain ⟨case, isStep, isDrawn⟩ := exists_mem_left drawn.bodies isBody
  have among := drawn.among case isStep
  have inRound : (Env.ofRound kind found increment old new).InRound inside names
      ((recursion.stepOf settings found case).clauses.flatMap
        StepClause.produced)
      recursion.goals.length [found, increment] := by
    constructor
    · intro name isName value isBound
      rcases List.mem_cons.mp (NameMap.mem_of_lookup isBound) with
        isIncrement | isLater
      · cases isIncrement
        exact absurd isName incrementNew.2
      · cases List.mem_singleton.mp isLater
        exact absurd isName foundNew
    · intro name isRound
      rcases List.mem_cons.mp isRound with isFound | isLater
      · subst isFound
        refine ⟨kind, old, ?_, areRows⟩
        have different : (name == increment) = false := by
          simpa using Ne.symm incrementNew.1
        rw [Env.ofRound, List.lookup_cons, different]
        exact List.lookup_cons_self
      · rw [List.mem_singleton.mp isLater]
        exact ⟨kind, new, List.lookup_cons_self,
          fun row isNew => areRows row (included isNew)⟩
  apply isDrawn.isRowOf
    (selects.stayWithin within isStep among settings found increment) isUniverse
    _ _ (List.Subset.trans (drawn.covered case isStep)
      (StepClause.IsAmong.produced among)) inRound
    started evaluated row inPart
  · intro name
    simp only [List.mem_append, List.mem_cons, List.not_mem_nil, or_false]
    rintro (isName | isFound | isIncrement)
    · exact .inr (.inr isName)
    · exact .inr (.inl isFound)
    · exact .inl isIncrement
  · intro name isRound
    rcases List.mem_cons.mp isRound with isFound | isLater
    · exact isFound ▸ foundNew
    · exact List.mem_singleton.mp isLater ▸ incrementNew.2

end Recursion

namespace Session

variable {session : Session} {kind : CollectionKind} {found increment : Name}
  {body : Expr}
  {site : Site}
variable {pattern : Pattern} {source : Expr} {steps : List Step}

/-- A round of a step function that mentions no fixpoints concludes. -/
theorem IsLoopFree.stepRows_concludes (free : session.IsLoopFree)
    (bodyFree : Name.AreLoopFree body.allNames) {round : Nat}
    (oldFree : ∀ row ∈ old, row.IsLoopFree)
    (newFree : ∀ row ∈ new, row.IsLoopFree) :
    Concludes (fun rows => ∀ row ∈ rows, row.IsLoopFree)
      (session.stepRows kind found increment body site round old new) := by
  have called : Concludes Value.IsLoopFree (session.call session.limits.maxDepth
      ⟨1 :: site, .tuple [.var found, .var increment], body, []⟩
      (round :: 2 :: site)
      (.tuple [.collection kind old, .collection kind new])) := by
    apply free.call_concludes
    · apply Value.IsLoopFree.closure bodyFree
      intro name value absurdity
      cases absurdity
    · apply Value.IsLoopFree.tuple
      intro item isItem
      rcases List.mem_cons.mp isItem with isOld | isLater
      · exact isOld ▸ .collection oldFree
      · exact List.mem_singleton.mp isLater ▸ .collection newFree
  refine called.bind fun value valueFree => ?_
  cases valueFree with
  | collection rowsFree => exact .ok rowsFree
  | _ => exact .failed _

/-- A comprehension concludes, if its only source does and its steps mention no
fixpoints. -/
theorem IsLoopFree.collect_concludes (free : session.IsLoopFree)
    (stepsFree : Name.AreLoopFree (Expr.allNamesSteps steps))
    (concludes :
      Concludes Value.IsLoopFree (session.evalIn (0 :: site) [] source)) :
    Concludes Value.IsLoopFree
      (session.evalIn site []
        (.collect ⟨[⟨pattern, some source⟩], steps⟩)) := by
  have calls := free.call_concludes session.limits.maxDepth
  refine (Expr.collectScans_cons_concludes Env.isLoopFree_nil
    (Expr.evalSource_concludes_of concludes) ?_).bind fun _ rowsFree =>
    .ok (.collection rowsFree)
  intro index row inner rowFree innerFree
  refine (Expr.scans_conclude free calls ?_ ?_ innerFree _
    (List.forall_mem_singleton.mpr rowFree)).1
  · intro kind absurdity
    cases absurdity
  · intro env place scanned envFree scannedFree
    exact Expr.evalSteps_concludes free calls stepsFree envFree place
      (Value.isLoopFree_ofScanned scannedFree)

/-- A comprehension halts where the source of its first scan does. -/
theorem evalIn_collect_of_error {env : Env} {scans : List Scan} {halt : Halt}
    (halted : session.evalIn (0 :: site) env source = .error halt) :
    session.evalIn site env
      (.collect ⟨⟨pattern, some source⟩ :: scans, steps⟩) = .error halt := by
  rw [evalIn] at halted
  rw [evalIn, Expr.eval, Expr.collectScans, Expr.evalSource, halted]
  rfl

/-- A fixpoint inside a finite space concludes, if its step function mentions no
fixpoints. -/
theorem IsLoopFree.fixpoint_concludes (free : session.IsLoopFree)
    (bodyFree : Name.AreLoopFree body.allNames) {space base : List Value}
    {holds : Value → Prop} (inside : ∀ row, holds row → row ∈ space)
    (kept : ∀ round old new rows, new ⊆ old →
      (∀ row ∈ old, holds row ∧ row.IsLoopFree) →
      session.stepRows kind found increment body site round old new = .ok rows →
        ∀ row ∈ rows, holds row)
    (baseHolds : ∀ row ∈ base, holds row ∧ row.IsLoopFree) {rounds : Nat}
    (enough : space.length < rounds) :
    Concludes (fun rows => ∀ row ∈ rows, row.IsLoopFree)
      (fixpoint (session.stepRows kind found increment body site) rounds
        base) := by
  have concludes (round : Nat) {old new : List Value} (included : new ⊆ old)
      (oldHolds : ∀ row ∈ old, holds row ∧ row.IsLoopFree) :
      Concludes (fun rows => ∀ row ∈ rows, row.IsLoopFree)
        (session.stepRows kind found increment body site round old new) :=
    free.stepRows_concludes bodyFree (fun row isOld => (oldHolds row isOld).2)
      fun row isNew => (oldHolds row (included isNew)).2
  have keptFree : RowStep.Keeps
      (session.stepRows kind found increment body site)
      fun row => holds row ∧ row.IsLoopFree := by
    intro round old new rows included oldHolds stepped row member
    have rowsFree := concludes round included oldHolds
    rw [stepped] at rowsFree
    exact ⟨kept round old new rows included oldHolds stepped row member,
      rowsFree.of_ok row member⟩
  rcases fixpoint_cases (fun row isHeld => Listed.of_mem (inside row isHeld.1))
    keptFree baseHolds
    enough with ⟨result, reached⟩ |
      ⟨round, old, new, halt, included, oldHolds, stepped, halted⟩
  · rw [reached]
    apply Concludes.ok
    intro row member
    exact (fixpoint_forall_mem reached _ keptFree baseHolds row member).2
  · have failed := concludes round included oldHolds
    rw [stepped] at failed
    rw [halted]
    cases failed with
    | failed cause => exact .failed cause

end Session

namespace Recursion.Selects

variable {recursion : Recursion} {settings : Settings} {session : Session}
  {names : List Name}
  {found increment : Name} {bodies : List Expr} {kind : CollectionKind}
    {base : Expr} {site : Site}
  (selects : recursion.Selects session) (free : session.IsLoopFree)
  (drawn : recursion.IsDrawn settings names found increment bodies)
  (bodyFree : Name.AreLoopFree (concatenated bodies).allNames)
    (started : Session.Started site)

include selects free drawn bodyFree started

/-- No round leaves the universe, whatever the bound on rounds is. -/
theorem isRowOf_of_stepRows {given : List Value}
    (within : recursion.YieldWithin session given) {inside : Value → Prop}
    (isUniverse : Value.IsUniverse (session.globalValues ++ given) inside)
    {rounds round : Nat} {rows : List Value} (included : new ⊆ old)
    (areRows : ∀ row ∈ old, row.IsRowOf inside recursion.goals.length ∧
      row.IsLoopFree)
    (stepped : (session.withRounds rounds).stepRows kind found increment
      (concatenated bodies) site round old new = .ok rows) :
    ∀ row ∈ rows, row.IsRowOf inside recursion.goals.length := by
  obtain ⟨bodyKind, evaluated⟩ := Session.exists_evalIn_of_stepRows stepped
  have envFree : (Env.ofRound kind found increment old new).IsLoopFree := by
    intro name value isBound
    rcases List.mem_cons.mp (NameMap.mem_of_lookup isBound) with
      isIncrement | isLater
    · cases isIncrement
      exact .collection fun row isNew => (areRows row (included isNew)).2
    · cases List.mem_singleton.mp isLater
      exact .collection fun row isOld => (areRows row isOld).2
  rw [free.evalIn_withRounds bodyFree envFree] at evaluated
  exact selects.isRowOf_of_rowsOf within drawn isUniverse
    (fun row isOld => (areRows row isOld).1)
    included
      (Session.rowsOf_concatenated ((started.cons 2).cons round) evaluated)

/-- The fixpoint concludes from some bound on rounds on. -/
theorem exists_bound (uniform : session.Uniform)
    (undeclared : ∀ kind,
      session.globals.lookup (Builtin.iterate kind).name = none)
    (baseFree : Name.AreLoopFree base.allNames) :
    ∃ bound, ∀ rounds, bound ≤ rounds → Concludes Value.IsLoopFree
      ((session.withRounds rounds).evalIn site [] (.apply
        (.apply (.var (Builtin.iterate kind).name) base)
        (.lambda (.tuple [.var found, .var increment])
          (concatenated bodies)))) := by
  have isFixpoint (rounds : Nat) :=
    @Session.evalIn_fixpoint (session.withRounds rounds) site kind
    found increment base (concatenated bodies)
      (Session.lookup_iterate (undeclared kind))
  have sameBase (rounds : Nat) :=
    free.evalIn_withRounds baseFree Env.isLoopFree_nil (1 :: 0 :: site) rounds
  have baseConcludes :=
    free.evalIn_concludes baseFree Env.isLoopFree_nil (1 :: 0 :: site)
  simp only [isFixpoint, sameBase]
  generalize session.evalIn (1 :: 0 :: site) [] base =
    baseOutcome at baseConcludes
  cases baseConcludes with
  | failed cause => exact ⟨0, fun rounds _ => .failed cause⟩
  | ok valueFree =>
      cases valueFree with
      | @collection baseKind baseRows rowsFree =>
          by_cases sameKind : baseKind = kind
          · subst sameKind
            obtain ⟨given, within⟩ := selects.exists_yieldWithin uniform
            -- The universe: globals, rows of sources and base rows, with their
            -- parts.
            let known := session.globalValues ++ (given ++ baseRows)
            obtain ⟨space, contains⟩ :=
              Value.exists_space known recursion.goals.length
            have isUniverse := Value.isUniverse_within known
            refine ⟨space.length + 1, ?_⟩
            intro rounds enough
            rw [Outcome.ok_bind, Value.iterate_collection]
            apply Concludes.bind
              ((free.withRounds rounds).fixpoint_concludes bodyFree contains
              _ _ enough)
            · intro rows rowsFree
              exact .ok (.collection rowsFree)
            · intro round old new rows included areRows stepped
              exact selects.isRowOf_of_stepRows free drawn bodyFree
                started within
                (isUniverse.mono_right (List.subset_append_left _ _)) included
                areRows stepped
            · intro row isBase
              refine ⟨.inl (isUniverse.given row ?_), rowsFree row isBase⟩
              exact List.mem_append_right _ (List.mem_append_right _ isBase)
          · refine ⟨0, ?_⟩
            intro rounds _
            rw [Outcome.ok_bind, Value.iterate, if_neg sameKind]
            exact .failed _
      | _ => exact ⟨0, fun rounds _ => .failed _⟩

end Recursion.Selects

/-- A name of a fixpoint function. -/
def Name.isLoop (name : Name) : Bool :=
  name = (Builtin.iterate .list).name || name = (Builtin.iterate .bag).name

theorem Name.isLoop_iterate (kind : CollectionKind) :
    isLoop (Builtin.iterate kind).name = true := by
  cases kind <;> rfl

theorem Name.areLoopFree_of_countP {names : List Name}
    (none : names.countP isLoop = 0) : AreLoopFree names := by
  intro kind member
  exact List.countP_eq_zero.mp none _ member (isLoop_iterate kind)

/-- How often an expression mentions a fixpoint function. -/
def Expr.loops (expr : Expr) : Nat :=
  expr.allNames.countP Name.isLoop

/-- The plan of a recursion that builds no new values concludes from some bound
on rounds on, if it mentions its own fixpoint only. -/
theorem QueryStages.exists_bound {program : Program} {settings : Settings}
    {expr : Expr} (stages : QueryStages program settings expr)
    {source : JoinSource} {session : Session}
    (selects : stages.call.recursion.Selects session)
    (uniform : session.Uniform) (free : session.IsLoopFree)
    (undeclared : ∀ kind, session.globals.lookup (Builtin.iterate kind).name =
      none) (single : (stages.plan source).loops = 1) {site : Site}
    (started : Session.Started site) :
    ∃ bound, ∀ rounds, bound ≤ rounds → Concludes Value.IsLoopFree
      ((session.withRounds rounds).evalIn site [] (stages.plan source)) := by
  obtain ⟨found, increment, bodies, drawn, isPlan⟩ := (Recursion.plan_draws
    (fun case isStep => (stages.call.step_cases isStep).1)
    (fun case isStep => (stages.call.step_cases isStep).2.2)
    (settings.joining source)).2
  have isFixpoint : (stages.call.fixpoint source).source = _ := isPlan
  rw [plan, isFixpoint] at single ⊢
  simp only [Expr.loops, Expr.allNames, Expr.allNamesQuery, Expr.allNamesScans,
    List.countP_append, List.countP_cons, List.countP_nil, Name.isLoop_iterate,
    if_true] at single
  obtain ⟨bound, concludes⟩ := @Recursion.Selects.exists_bound _ _ _ _ _ _ _
    stages.call.recursion.base.generator.kind stages.call.recursion.baseRelation
      (0 :: site) selects
    free drawn (Name.areLoopFree_of_countP (by omega)) (started.cons 0) uniform
      undeclared
    (Name.areLoopFree_of_countP (by omega))
  refine ⟨bound, ?_⟩
  intro rounds enough
  exact (free.withRounds rounds).collect_concludes
    (Name.areLoopFree_of_countP (by omega)) (concludes rounds enough)

/-- From some bound on rounds on, an evaluation has one outcome, which is not
for want of rounds. -/
def Program.Terminates (program : Program) (limits : Limits) (site : Site)
    (expr : Expr) : Prop :=
  ∃ outcome, outcome ≠ .error .outOfRounds ∧ ∃ bound, ∀ rounds, bound ≤ rounds →
    program.evaluate { limits with rounds := rounds } site [] expr = outcome

theorem Program.terminates_of_bound {program : Program} {limits : Limits}
    {site : Site} {expr : Expr} {bound : Nat}
    (reached : program.evaluate { limits with rounds := bound } site [] expr ≠
      .error .outOfRounds) : program.Terminates limits site expr := by
  refine ⟨_, reached, bound, ?_⟩
  intro rounds enough
  have widen : Limits.Widen (· = .outOfRounds) { limits with rounds := bound }
      { limits with rounds := rounds } := ⟨.inl rfl, .inl rfl, enough, rfl⟩
  apply (program.evaluate_persists widen site [] expr).eq_of_not_cut
  intro halt isCut
  rw [isCut]
  exact reached

/-- A plan terminates if no step of its recursion builds new values: what a step
scans does not depend on its variables or selects among their values, truth
values and integers, and its recursive call takes rows apart.  Neither the
program nor the plan mentions other fixpoints. -/
theorem selecting_plan_terminates {program : Program} {settings : Settings}
    {expr plan : Expr} {recursion : Recursion} {limits : Limits}
    {session : Session}
    (planned : (PredicateInverter.ofProgram program settings).plan expr =
      .ok plan) (reads : program.recursionOf? settings expr = some recursion)
    (loaded : Session.load program limits = .ok session)
    (extent : ∀ values, limits.extent = some values → ∀ value ∈ values,
      value.isFunctionFree = true)
    (loopFree : Name.AreLoopFree program.names) (single : plan.loops = 1)
    (selects : recursion.Selects session) (number : Nat) :
    program.Terminates limits (Session.root number) plan := by
  have uniform : session.Uniform := Session.uniform_of_load extent loaded
  have loads (rounds : Nat) :=
    Session.load_withRounds loopFree (fun values isExtent value member =>
    Value.isLoopFree_of_isFunctionFree (extent values isExtent value member))
    loaded rounds
  have undeclared : ∀ kind, session.globals.lookup (Builtin.iterate kind).name =
    none := by
    intro kind
    apply Session.lookup_of_load loaded
    cases declared : program.decl? (Builtin.iterate kind).name with
    | none => rfl
    | some decl =>
        exact absurd (Program.mem_names_of_decl? declared) (loopFree kind)
  rcases PredicateInverter.plan_cases program settings expr with
    ⟨refusal, refused⟩ | ⟨stages, plans⟩
  · cases (refused settings.joinSource).symm.trans planned
  · cases (plans settings.joinSource).symm.trans planned
    cases stages.recursionOf?_eq.symm.trans reads
    obtain ⟨bound, concludes⟩ :=
      stages.exists_bound selects uniform (loads 0).1 undeclared single
      (.root number)
    apply @Program.terminates_of_bound program limits
      (Session.root number) _ bound
    rw [Program.evaluate, (loads bound).2, Outcome.ok_bind]
    exact (concludes bound (Nat.le_refl _)).ne_outOfRounds

namespace PathPredicate

/-- Paths from one to one whose end moves on to a value that is computed from
it. -/
def extending (target : Expr) (conditions : List Expr) : Program :=
  pathsOver [("b", [(1, 1)])]
    [.conjunction (call "x" "z" :: .equals (.var "y") target :: conditions)]

def extendingStep (target : Expr) (conditions : List Expr) : Query :=
  .filtered [pairs "x" "z" "new", ⟨.var "y", some (.list [target])⟩] conditions
    (.row ["x", "y"])

def extendingPlan (target : Expr) (conditions : List Expr) : Expr :=
  planOver [extendingStep target conditions]

def extendingRecursion (target : Expr) (conditions : List Expr) :
    Recursion where
  goals := ["x", "y"]
  base := ⟨Recursion.edges "x" "y", []⟩
  steps :=
    [⟨.recursive "path" (.tuple [.var "x", .var "z"]) ::
      .scan ⟨.var "y", .list [target], .list, .finite⟩ [] ::
        conditions.map .filter, ["z"]⟩]

/-- Ends that are computed as integers are never new for long. -/
theorem selects_extending (session : Session) {target : Expr}
    (scalar : target.IsScalar) (conditions : List Expr) :
    (extendingRecursion target conditions).Selects session := by
  constructor
  · intro case isStep generator residual isScan
    rw [List.mem_singleton.mp isStep] at isScan
    have isSource : generator.source = .list [target] := by
      simp only [List.mem_cons, reduceCtorEq, StepClause.scan.injEq,
        List.mem_map, and_false, exists_false, or_false, false_or] at isScan
      rw [isScan.1]
    rw [isSource]
    apply Expr.Selects.list
    intro item isItem
    rw [List.mem_singleton.mp isItem]
    exact .scalar scalar
  · intro case isStep function argument isCall name isVar
    rw [List.mem_singleton.mp isStep] at isCall
    simp [isVar] at isCall

/-- The next number. -/
def successor : Expr :=
  .binary .add (.var "z") (.int 1)

/-- Ends move up to four. -/
theorem selecting_plan_terminates_successor :
    let below : Expr := .binary .lt (.var "z") (.int 4)
    Yields (extending successor [below]) .stepRelation
      (extendingPlan successor [below]) [(1, 1), (1, 2), (1, 3), (1, 4)] ∧
      (extending successor [below]).recursionOf? {} query =
        some (extendingRecursion successor [below]) ∧
      (extending successor [below]).Terminates {} (Session.root 0)
        (extendingPlan successor [below]) := by
  intro below
  have yields : Yields (extending successor [below]) .stepRelation
      (extendingPlan successor [below]) [(1, 1), (1, 2), (1, 3), (1, 4)] :=
      ⟨by decide +kernel, rfl⟩
  have reads : (extending successor [below]).recursionOf? {} query =
      some (extendingRecursion successor [below]) := by
    decide +kernel
  refine ⟨yields, reads, ?_⟩
  obtain ⟨session, loaded, _⟩ := Outcome.bind_eq_ok_iff.mp yields.2
  apply selecting_plan_terminates (Refusal.eq_ok_of_toOption yields.1) reads
    loaded _ _ (by decide)
    (selects_extending session (.binary _ _ (by decide)) [below]) 0
  · intro values absurdity
    cases absurdity
  · intro kind
    cases kind <;> decide

/-- The pair of the end and one. -/
def pairWithOne : Expr :=
  .tuple [.var "z", .int 1]

def nested : Nat → Value
  | 0 => .int 1
  | depth + 1 => .tuple [nested depth, .int 1]

def nestedRow (depth : Nat) : Value :=
  .tuple [.int 1, nested depth]

theorem nested_injective {depth other : Nat}
    (same : nested depth = nested other) : depth = other := by
  induction depth generalizing other with
  | zero =>
      cases other with
      | zero => rfl
      | succ other => cases same
  | succ depth induction =>
      cases other with
      | zero => cases same
      | succ other =>
          injection same with same
          injection same with same
          rw [induction same]

theorem plain_nested (depth : Nat) : (nested depth).toExpr?.isSome = true := by
  induction depth with
  | zero => rfl
  | succ depth induction =>
      rw [nested, Value.plain_tuple_iff]
      intro item isItem
      rcases List.mem_cons.mp isItem with isFirst | isLater
      · exact isFirst ▸ induction
      · exact List.mem_singleton.mp isLater ▸ rfl

theorem not_alike_nestedRow {depth other : Nat} (different : depth ≠ other) :
    ¬ (nestedRow depth).Alike (nestedRow other) := by
  intro alike
  have isPlain : (nestedRow other).toExpr?.isSome = true := by
    rw [nestedRow, Value.plain_tuple_iff]
    intro item isItem
    rcases List.mem_cons.mp isItem with isFirst | isLater
    · exact isFirst ▸ rfl
    · exact List.mem_singleton.mp isLater ▸ plain_nested other
  have same := Value.eq_of_alike isPlain alike
  injection same with same
  injection same with _ same
  injection same with same
  exact different (nested_injective same)

/-- The step of the plan goes on to a pair one level deeper. -/
theorem stepRows_pairWithOne {session : Session} {left : Nat}
    (calls : session.limits.maxDepth = left + 1) (site : Site) (round : Nat)
    (found : List Value) (depth : Nat) :
    session.stepRows .list "old" "new" (.collect (extendingStep pairWithOne []))
      site round found [nestedRow depth] = .ok [nestedRow (depth + 1)] := by
  rw [Session.stepRows, calls]
  rfl

/-- Each round has a pair one level deeper, so that no bound on rounds is
enough. -/
theorem pairing_plan_runs_out :
    ((PredicateInverter.ofProgram (extending pairWithOne []) {}).plan
      query).toOption = some (extendingPlan pairWithOne []) ∧
      ∀ rounds, (extending pairWithOne []).evaluate { rounds := rounds }
        (Session.root 0) []
        (extendingPlan pairWithOne []) = .error .outOfRounds := by
  refine ⟨by decide +kernel, ?_⟩
  intro rounds
  let site := Session.root 0
  obtain ⟨session, loaded, calls, isRounds, iterates, edges⟩ : ∃ session,
      Session.load (extending pairWithOne []) { rounds := rounds } =
        .ok session ∧
      session.limits.maxDepth = ({} : Limits).maxDepth ∧
      session.limits.rounds = rounds ∧
      session.globals.lookup "List.iterate" = none ∧
      session.evalIn (1 :: 0 :: 0 :: site) [] (.var "b") =
        .ok (Edge.relation [(1, 1)]) :=
    ⟨_, rfl, rfl, rfl, rfl, rfl⟩
  have runsOut := fixpoint_outOfRounds (fun _ _ => not_alike_nestedRow)
    (stepRows_pairWithOne calls (0 :: site)) rounds
  have fixpoint :=
    @Session.evalIn_fixpoint session (0 :: site) .list "old" "new" (.var "b")
    (.collect (extendingStep pairWithOne []))
    (@Session.lookup_iterate session .list iterates)
  rw [edges, Outcome.ok_bind, Edge.relation, Value.iterate_collection,
    isRounds] at fixpoint
  have halted := fixpoint.trans (congrArg (· >>= _) runsOut)
  rw [Program.evaluate, loaded, Outcome.ok_bind]
  exact Session.evalIn_collect_of_error halted

end PathPredicate

end RecursiveQuery
