import RecursiveQuery.Proofs.PathSteps
import RecursiveQuery.Proofs.PlanVariables
import RecursiveQuery.Proofs.RoundRows

/-!
# Steps that scan found rows

A step that joins edges of the base relation to paths may scan the rows found so
far in place of the edges.  It then joins paths to paths, which adds nothing if
paths can be joined anyway: if all steps hand on the same end of their paths, or
join base edges to them.  Other steps may change the ends of paths at both
sides, and the option changes the result.
-/

namespace RecursiveQuery

/-- Some paths lead on from the end of a path to what the path leads to. -/
def PathEnd.JoinsTo (side : PathEnd) (paths : List Value) (path : Value) :
    Prop :=
  ∀ first joint last, path = .tuple (side.pair first joint) →
    .tuple (side.pair joint last) ∈ paths →
      .tuple (side.pair first last) ∈ paths

namespace StepCase

theorem scanning_eq_self {case : StepCase} {source : Expr → Expr}
    (kept : ∀ generator residual, .scan generator residual ∈ case.clauses →
      source generator.source = generator.source) : case.scanning source =
      case := by
  obtain ⟨clauses, joins⟩ := case
  have same : clauses.map (StepClause.scanning source) = clauses.map id := by
    apply List.map_congr_left
    intro clause isClause
    cases clause with
    | scan generator residual =>
        rw [StepClause.scanning, kept generator residual isClause, id_eq]
    | filter condition => rfl
    | recursive function argument => rfl
  rw [List.map_id] at same
  rw [scanning, same]

end StepCase

namespace Recursion

variable {generator : Generator}

/-- A step scans the rows found so far wherever steps may do so. -/
def scansFound (recursion : Recursion) (case : StepCase) : Bool :=
  case.composesPaths recursion.goals && !recursion.isProjected &&
    (case.clauses.filterMap StepClause.generator?).any fun generator =>
      generator.source = recursion.base.generator.source

variable {recursion : Recursion} {settings : Settings} {case : StepCase}
  {found : Name}

theorem accumulatedSource?_eq_some_iff {source : Expr} :
    recursion.accumulatedSource? settings = some source ↔
      settings.joinSource = .accumulated ∧ recursion.isProjected = false ∧
        recursion.base.generator.source = source := by
  unfold accumulatedSource?
  cases settings.joinSource with
  | stepRelation => simp
  | accumulated => cases recursion.isProjected <;> simp

/-- A step that does not scan the rows found so far stays as it is. -/
theorem stepOf_eq_self
    (kept : settings.joinSource = .stepRelation ∨
      recursion.scansFound case = false) :
    recursion.stepOf settings found case = case := by
  apply StepCase.scanning_eq_self
  intro generator residual isScan
  rw [StepCase.sourceOf, replacedSource?, if_neg]
  intro isAccumulated
  by_cases composes : case.composesPaths recursion.goals = true
  · rw [if_pos composes, accumulatedSource?_eq_some_iff] at isAccumulated
    obtain ⟨accumulates, unprojected, isBase⟩ := isAccumulated
    rcases kept with joinsStep | notFound
    · cases accumulates.symm.trans joinsStep
    · have isGenerator : generator ∈
        case.clauses.filterMap StepClause.generator? :=
        List.mem_filterMap.mpr ⟨_, isScan, rfl⟩
      rw [scansFound, composes, unprojected, Bool.not_false, Bool.true_and,
        Bool.true_and, List.any_eq_false] at notFound
      exact notFound generator isGenerator (decide_eq_true isBase.symm)
  · rw [if_neg composes] at isAccumulated
    cases isAccumulated

/-- A step that scans the rows found so far joins edges to paths. -/
theorem exists_hopsTo_of_scansFound (scans : recursion.scansFound case = true) :
    ∃ side generator, case.HopsTo side recursion.goals generator := by
  rw [scansFound, Bool.and_eq_true, Bool.and_eq_true] at scans
  exact StepCase.exists_hopsTo scans.1.1

/-- The only edges that such a step joins to paths are those of the base
relation. -/
theorem source_of_hopsTo (scans : recursion.scansFound case = true)
    {side : PathEnd} (hops : case.HopsTo side recursion.goals generator) :
    generator.source = recursion.base.generator.source := by
  rw [scansFound, Bool.and_eq_true] at scans
  obtain ⟨other, isOther, isBase⟩ := List.any_eq_true.mp scans.2
  obtain ⟨near, middle, far, _, joins⟩ := hops
  obtain ⟨function, isStep⟩ := joins.clauses
  have single : case.clauses.filterMap StepClause.generator? = [generator] := by
    rcases isStep with isStep | isStep <;> rw [isStep] <;> rfl
  rw [single, List.mem_singleton] at isOther
  subst isOther
  exact of_decide_eq_true isBase

/-- Where found rows are scanned, they are joined to paths in place of the
edges. -/
theorem stepOf_hopsTo (scans : recursion.scansFound case = true)
    (accumulates : settings.joinSource = .accumulated) {side : PathEnd}
    (hops : case.HopsTo side recursion.goals generator) :
    (recursion.stepOf settings found case).HopsTo side recursion.goals
      { generator with source := .var found } := by
  have isBase := source_of_hopsTo scans hops
  rw [scansFound, Bool.and_eq_true, Bool.and_eq_true,
    Bool.not_eq_true'] at scans
  have accumulated : recursion.accumulatedSource? settings =
    some generator.source :=
    accumulatedSource?_eq_some_iff.mpr ⟨accumulates, scans.1.2, isBase.symm⟩
  obtain ⟨near, middle, far, isGoals, joins⟩ := hops
  obtain ⟨function, isStep⟩ := joins.clauses
  refine ⟨near, middle, far, isGoals, joins.not_near, joins.not_far,
    joins.pattern, function, ?_⟩
  rw [stepOf, replacedSource?, if_pos scans.1.1, accumulated, StepCase.scanning]
  apply isStep.imp
  · intro clauses
    rw [clauses]
    simp [StepClause.scanning, StepCase.sourceOf]
  · intro clauses
    rw [clauses]
    simp [StepClause.scanning, StepCase.sourceOf]

/-- All steps join base edges to paths or hand on the same end of their paths,
and one of them joins edges at the other end. -/
structure KeepsEnd (session : Session) (side : PathEnd)
    (recursion : Recursion) : Prop where
  linear : ∀ case ∈ recursion.steps, ∀ clause ∈ case.clauses,
    clause.isLinear = true
  inOrder : ∀ case ∈ recursion.steps,
    StepClause.areInOrder [] case.clauses = true
  plain : ∀ case ∈ recursion.steps, ∀ generator residual,
    .scan generator residual ∈ case.clauses →
      session.YieldsPlainly [] generator.source
  closed : ∀ case ∈ recursion.steps, recursion.scansFound case = true →
    ∀ name ∈ recursion.base.generator.source.freeVars,
      name ∉ case.clauses.flatMap StepClause.produced
  either : ∀ case ∈ recursion.steps,
    recursion.scansFound case = true ∨ case.HandsOn side recursion.goals
  hops : ∃ case ∈ recursion.steps, recursion.scansFound case = true ∧
    ∃ generator, case.HopsTo side recursion.goals generator

section Paths

variable {session : Session} {names : List Name} {side : PathEnd}
  {kind : CollectionKind}
  {base new : List Value} {row : Value}

/-- The base relation of a recursion has some rows. -/
def HasBase (session : Session) (recursion : Recursion) (kind : CollectionKind)
    (base : List Value) : Prop :=
  ∃ place, Session.Started place ∧
    session.evalIn place [] recursion.base.generator.source =
      .ok (.collection kind base)

namespace KeepsEnd

variable (keeps : recursion.KeepsEnd session side)
  (isPlain : recursion.IsPlain session names)
  (distinct : recursion.goals.Nodup)
    (hasBase : recursion.HasBase session kind base)

include keeps

theorem yieldsPlainly :
    session.YieldsPlainly [] recursion.base.generator.source := by
  obtain ⟨case, isStep, scans, generator, hops⟩ := keeps.hops
  have isBase := source_of_hopsTo scans hops
  obtain ⟨near, middle, far, _, joins⟩ := hops
  obtain ⟨function, clauses⟩ := joins.clauses
  rw [← isBase]
  apply keeps.plain case isStep generator []
  rcases clauses with clauses | clauses <;> simp [clauses]

/-- The rows of the base relation are the same wherever it is evaluated. -/
theorem hasBase_unique (uniform : session.Uniform) {given : CollectionKind}
    {others : List Value} (hasBase : recursion.HasBase session kind base)
    (hasOthers : recursion.HasBase session given others) :
    given = kind ∧ others = base := by
  obtain ⟨place, started, evaluated⟩ := hasBase
  obtain ⟨place', started', evaluated'⟩ := hasOthers
  have same :=
    keeps.yieldsPlainly.rows_eq uniform Env.isFunctionFree_nil (.refl [])
    (fun _ _ => rfl) started started' evaluated
  cases evaluated'.symm.trans same
  exact ⟨rfl, rfl⟩

include hasBase

theorem basePlain : ∀ row ∈ base, row.toExpr?.isSome = true := by
  obtain ⟨place, started, evaluated⟩ := hasBase
  exact keeps.yieldsPlainly [] (.refl []) place kind base started evaluated

include isPlain distinct

/-- What follows by a step that joins base edges to paths. -/
theorem derives_iff (isStep : case ∈ recursion.steps)
    (scans : recursion.scansFound case = true) {other : PathEnd}
    {generator : Generator} (hops : case.HopsTo other recursion.goals generator)
    (newPlain : ∀ row ∈ new, row.toExpr?.isSome = true) :
    case.Derives session recursion.goals [] new row ↔ ∃ first joint last,
      .tuple (other.pair first joint) ∈ base ∧
      .tuple (other.pair joint last) ∈ new ∧
        row = .tuple (other.pair first last) := by
  apply hops.derives_iff distinct _ (keeps.basePlain hasBase) newPlain
  · exact kind
  · intro chosen chooses
    obtain ⟨place, started, evaluated⟩ := hasBase
    rw [source_of_hopsTo scans hops]
    apply keeps.yieldsPlainly.rows_eq isPlain.uniform Env.isFunctionFree_nil
      (.refl []) _ started (.root 0) evaluated
    intro name inSource
    have unchosen : chosen.lookup name = none := by
      apply chooses.assigns.lookup_eq_none
      simpa using keeps.closed case isStep scans name inSource
    rw [List.append_nil, unchosen]
    rfl

/-- What follows by a step follows from one row of the increment. -/
theorem exists_single (isStep : case ∈ recursion.steps)
    (newPlain : ∀ row ∈ new, row.toExpr?.isSome = true)
    (derives : case.Derives session recursion.goals [] new row) :
    ∃ path ∈ new, case.Derives session recursion.goals [] [path] row := by
  rcases keeps.either case isStep with scans | hands
  · obtain ⟨other, generator, hops⟩ := exists_hopsTo_of_scansFound scans
    obtain ⟨first, joint, last, isEdge, isPath, isRow⟩ :=
      (keeps.derives_iff isPlain distinct hasBase isStep scans hops newPlain).mp
      derives
    refine ⟨_, isPath, ?_⟩
    apply (keeps.derives_iff isPlain distinct hasBase isStep scans hops _).mpr
    · exact ⟨first, joint, last, isEdge, List.mem_cons_self, isRow⟩
    · intro other member
      rw [List.mem_singleton.mp member]
      exact newPlain _ isPath
  · obtain ⟨first, joint, last, isPath, isRow, each⟩ :=
      hands.exists_derives distinct
      (isPlain.regular case isStep).covered isPlain.uniform
      Env.isFunctionFree_nil
      (keeps.plain case isStep) derives
    rw [isRow]
    exact ⟨_, isPath, each last (PathEnd.plain_pair.mp (newPlain _ isPath)).2⟩

end KeepsEnd

/-- What follows in a round by a step that scans the rows found so far. -/
theorem IsPlain.stepOf_derives_iff (isPlain : recursion.IsPlain session names)
    (distinct : recursion.goals.Nodup) {increment : Name} {old : List Value}
    (foundNew : found ∉ names) (incrementNew : increment ∉ found :: names)
    (oldPlain : ∀ row ∈ old, row.toExpr?.isSome = true)
    (newPlain : ∀ row ∈ new, row.toExpr?.isSome = true)
    (isStep : case ∈ recursion.steps) (scans : recursion.scansFound case = true)
    (accumulates : settings.joinSource = .accumulated)
    (hops : case.HopsTo side recursion.goals generator) :
    (recursion.stepOf settings found case).Derives session recursion.goals
        (Env.ofRound kind found increment old new) new row ↔ ∃ first joint last,
      .tuple (side.pair first joint) ∈ old ∧
      .tuple (side.pair joint last) ∈ new ∧
        row = .tuple (side.pair first last) := by
  apply (stepOf_hopsTo scans accumulates hops).derives_iff distinct _ oldPlain
    newPlain
  · exact kind
  · intro chosen chooses
    apply Session.lookup_of_env
    have unchosen : chosen.lookup found = none := by
      apply chooses.assigns.lookup_eq_none
      rw [stepOf, StepCase.scanning, StepClause.flatMap_produced_scanning]
      have notProduced : found ∉ case.clauses.flatMap StepClause.produced :=
        fun isProduced =>
        foundNew (StepClause.IsAmong.produced
          (isPlain.regular case isStep).among isProduced)
      simpa using notProduced
    rw [List.lookup_append, unchosen, Option.none_or]
    exact Env.lookup_ofRound_found fun same =>
      incrementNew (same ▸ List.mem_cons_self)

namespace KeepsEnd

variable {increment : Name} {result : List Value}
  (keeps : recursion.KeepsEnd session side)
  (isPlain : recursion.IsPlain session names) (distinct : recursion.goals.Nodup)
  (hasBase : recursion.HasBase session kind base)
  (iterates : recursion.Iterates session settings names found increment kind
    base result)

include keeps isPlain distinct hasBase iterates

/-- What follows from a row of a fixpoint is a row of it, whatever its steps
scan. -/
theorem mem_of_derives (isStep : case ∈ recursion.steps) {path : Value}
    (member : path ∈ result)
    (derives : case.Derives session recursion.goals [] [path] row) :
    row ∈ result := by
  have basePlain := keeps.basePlain hasBase
  have resultPlain := iterates.plain isPlain basePlain
  obtain ⟨old, new, included, subset, baseSubset, isNew, closed⟩ :=
    iterates.exists_round isPlain basePlain member
  have oldPlain : ∀ row ∈ old, row.toExpr?.isSome = true := fun row isOld =>
    resultPlain row (subset isOld)
  have newPlain : ∀ row ∈ new, row.toExpr?.isSome = true := fun row isNew =>
    oldPlain row (included isNew)
  apply closed
  refine ⟨case, isStep, ?_⟩
  by_cases scansOld : settings.joinSource = .accumulated ∧
    recursion.scansFound case = true
  · obtain ⟨other, generator, hops⟩ := exists_hopsTo_of_scansFound scansOld.2
    have follows :=
      derives.mono (List.cons_subset.mpr ⟨isNew, List.nil_subset new⟩)
    obtain ⟨first, joint, last, isEdge, isPath, isRow⟩ :=
      (keeps.derives_iff isPlain distinct
      hasBase isStep scansOld.2 hops newPlain).mp follows
    apply (isPlain.stepOf_derives_iff distinct iterates.found_new
      iterates.increment_new oldPlain
      newPlain isStep scansOld.2 scansOld.1 hops).mpr
    exact ⟨first, joint, last, baseSubset isEdge, isPath, isRow⟩
  · have kept : settings.joinSource = .stepRelation ∨
      recursion.scansFound case = false := by
      cases joins : settings.joinSource with
      | stepRelation => exact .inl rfl
      | accumulated => exact .inr (by simpa [joins] using scansOld)
    rw [stepOf_eq_self kept]
    apply (derives_ofRound_iff isPlain iterates.found_new iterates.increment_new
      oldPlain newPlain isStep).mpr
    exact derives.mono (List.cons_subset.mpr ⟨isNew, List.nil_subset new⟩)

/-- A base edge in front of a path of a fixpoint leads to a path of it. -/
theorem mem_of_edge {first joint last : Value}
    (isEdge : .tuple (side.pair first joint) ∈ base)
    (isPath : .tuple (side.pair joint last) ∈ result) :
    .tuple (side.pair first last) ∈ result := by
  obtain ⟨case, isStep, scans, generator, hops⟩ := keeps.hops
  apply keeps.mem_of_derives isPlain distinct hasBase iterates isStep isPath
  apply (keeps.derives_iff isPlain distinct hasBase isStep scans hops _).mpr
  · exact ⟨first, joint, last, isEdge, List.mem_cons_self, rfl⟩
  · intro row member
    rw [List.mem_singleton.mp member]
    exact iterates.plain isPlain (keeps.basePlain hasBase) _ isPath

/-- By induction on the rounds that find the first path, all paths of a fixpoint
that scans base edges can be joined. -/
theorem joinsTo (joinsStep : settings.joinSource = .stepRelation) {path : Value}
    (member : path ∈ result) : side.JoinsTo result path := by
  have basePlain := keeps.basePlain hasBase
  have resultPlain := iterates.plain isPlain basePlain
  refine (iterates.forall_mem isPlain basePlain (side.JoinsTo result) ?_ ?_ path
    member).2
  · intro edge isEdge first joint last isPair isPath
    rw [isPair] at isEdge
    exact keeps.mem_of_edge isPlain distinct hasBase iterates isEdge isPath
  · intro old new included oldPlain joined row derived first joint last
      isPair isPath
    subst isPair
    have newPlain : ∀ row ∈ new, row.toExpr?.isSome = true := fun row isNew =>
      oldPlain row (included isNew)
    obtain ⟨case, isStep, derives⟩ := derived
    rw [stepOf_eq_self (.inl joinsStep)] at derives
    replace derives :=
      (derives_ofRound_iff isPlain iterates.found_new iterates.increment_new
      oldPlain newPlain isStep).mp derives
    rcases keeps.either case isStep with scans | hands
    · obtain ⟨other, generator, hops⟩ := exists_hopsTo_of_scansFound scans
      obtain ⟨start, middle, target, isEdge, isNew, isRow⟩ :=
        (keeps.derives_iff isPlain distinct hasBase isStep scans hops
          newPlain).mp derives
      by_cases same : other = side
      · -- The edge stands in front of the path, which is joined to the second
        -- one at first.
        subst same
        obtain ⟨rfl, rfl⟩ := PathEnd.pair_inj.mp (Value.tuple.inj isRow)
        exact keeps.mem_of_edge isPlain distinct hasBase iterates isEdge
          (joined _ (included isNew) _ _ _ rfl isPath)
      · -- The edge stands behind the path, so that it is joined to the second
        -- path at first.
        rw [PathEnd.pair_of_ne same] at isEdge isNew isRow
        obtain ⟨rfl, rfl⟩ := PathEnd.pair_inj.mp (Value.tuple.inj isRow)
        exact joined _ (included isNew) _ _ _ rfl
          (keeps.mem_of_edge isPlain distinct hasBase iterates isEdge isPath)
    · obtain ⟨start, middle, target, isNew, isRow, each⟩ :=
        hands.exists_derives distinct
        (isPlain.regular case isStep).covered isPlain.uniform
        Env.isFunctionFree_nil
        (keeps.plain case isStep) derives
      obtain ⟨rfl, rfl⟩ := PathEnd.pair_inj.mp (Value.tuple.inj isRow)
      have isJoined := joined _ (included isNew) _ _ _ rfl isPath
      exact keeps.mem_of_derives isPlain distinct hasBase iterates isStep
        isJoined (each last (PathEnd.plain_pair.mp (resultPlain _ isPath)).2)

omit iterates

/-- The fixpoints that scan base edges and found rows have the same rows. -/
theorem mem_iff_mem {steps accumulated : Settings}
    (joinsStep : steps.joinSource = .stepRelation)
    (accumulates : accumulated.joinSource = .accumulated)
    {foundStep incrementStep : Name} {foundOld incrementOld : Name}
    {others : List Value}
    (iterates : recursion.Iterates session steps names foundStep incrementStep
      kind base result)
    (iteratesOld : recursion.Iterates session accumulated names foundOld
      incrementOld kind base
      others) (row : Value) : row ∈ result ↔ row ∈ others := by
  have basePlain := keeps.basePlain hasBase
  constructor
  · intro member
    refine (iterates.forall_mem isPlain basePlain (· ∈ others)
      (iteratesOld.base_subset basePlain) ?_ row member).2
    intro old new included oldPlain isOther next derived
    have newPlain : ∀ row ∈ new, row.toExpr?.isSome = true := fun row isNew =>
      oldPlain row (included isNew)
    obtain ⟨case, isStep, derives⟩ := derived
    rw [stepOf_eq_self (.inl joinsStep),
      derives_ofRound_iff isPlain iterates.found_new
      iterates.increment_new oldPlain newPlain isStep] at derives
    obtain ⟨path, isNew, follows⟩ :=
      keeps.exists_single isPlain distinct hasBase isStep newPlain derives
    exact keeps.mem_of_derives isPlain distinct hasBase iteratesOld isStep
      (isOther path (included isNew)) follows
  · intro member
    refine (iteratesOld.forall_mem isPlain basePlain (· ∈ result)
      (iterates.base_subset basePlain) ?_ row member).2
    intro old new included oldPlain isResult next derived
    have newPlain : ∀ row ∈ new, row.toExpr?.isSome = true := fun row isNew =>
      oldPlain row (included isNew)
    obtain ⟨case, isStep, derives⟩ := derived
    cases scans : recursion.scansFound case with
    | true =>
        obtain ⟨other, generator, hops⟩ := exists_hopsTo_of_scansFound scans
        obtain ⟨first, joint, last, isOld, isNew, isRow⟩ :=
          (isPlain.stepOf_derives_iff distinct iteratesOld.found_new
            iteratesOld.increment_new
            oldPlain newPlain isStep scans accumulates hops).mp derives
        have isFirst := isResult _ isOld
        have isLast := isResult _ (included isNew)
        rw [isRow]
        by_cases same : other = side
        · subst same
          exact keeps.joinsTo isPlain distinct hasBase iterates joinsStep
            isFirst _ _ _ rfl isLast
        · rw [PathEnd.pair_of_ne same] at isFirst isLast ⊢
          exact keeps.joinsTo isPlain distinct hasBase iterates joinsStep isLast
            _ _ _ rfl isFirst
    | false =>
        rw [stepOf_eq_self (.inr scans),
          derives_ofRound_iff isPlain iteratesOld.found_new
          iteratesOld.increment_new oldPlain newPlain isStep] at derives
        obtain ⟨path, isNew, follows⟩ :=
          keeps.exists_single isPlain distinct hasBase isStep newPlain derives
        exact keeps.mem_of_derives isPlain distinct hasBase iterates isStep
          (isResult path (included isNew)) follows

end KeepsEnd

end Paths

end Recursion

end RecursiveQuery
