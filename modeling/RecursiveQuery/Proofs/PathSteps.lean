import RecursiveQuery.Proofs.ClosureShape
import RecursiveQuery.Proofs.StepSources

/-!
# Steps over paths

A step over pairs can put an edge in front of a path or behind it, and it can
hand on an end of the path that it is given.  Seen from the end that stays, the
two ways to add an edge are one.
-/

namespace RecursiveQuery

variable {env : Env}

theorem Pattern.readIn_two {first second : Pattern} {value : Value} :
    (tuple [first, second]).ReadIn env value ↔
      ∃ left right, value = .tuple [left, right] ∧ first.ReadIn env left ∧
        second.ReadIn env right := by
  constructor
  · intro read
    cases value with
    | tuple items =>
        match items, read with
        | [left, right], read => exact ⟨left, right, rfl, read.1, read.2.1⟩
        | [], read => exact read.elim
        | [left], read => exact read.2.elim
        | left :: right :: third :: rest, read => exact read.2.2.elim
    | _ => exact read.elim
  · intro read
    obtain ⟨left, right, isTuple, readLeft, readRight⟩ := read
    subst isTuple
    exact ⟨readLeft, readRight, trivial⟩

theorem Expr.valueIn_two {first second : Name} {row : Value} :
    (Expr.row [first, second]).valueIn env = some row ↔
      ∃ left right, row = .tuple [left, right] ∧ env.lookup first = some left ∧
        env.lookup second = some right := by
  change ((valuesIn env [.var first, .var second]).map .tuple = some row) ↔ _
  rw [valuesIn, valuesIn, valuesIn, valueIn, valueIn]
  cases env.lookup first with
  | none => simp
  | some left =>
      cases env.lookup second with
      | none => simp
      | some right => simp [eq_comm]

/-- An end of a path. -/
inductive PathEnd where
  | start
  | target
deriving DecidableEq

namespace PathEnd

variable {α : Type}
variable {side : PathEnd} {env : Env}

/-- A pair whose second component stands at an end. -/
def pair (side : PathEnd) (near far : α) : List α :=
  match side with
  | start => [far, near]
  | target => [near, far]

theorem mem_pair {near far item : α} :
    item ∈ side.pair near far ↔ item = near ∨ item = far := by
  cases side <;> simp [pair, or_comm]

theorem pair_inj {near far other last : α} :
    side.pair near far = side.pair other last ↔ near = other ∧ far = last := by
  cases side <;> simp [pair, and_comm]

/-- Seen from the other end a pair is turned around. -/
theorem pair_of_ne {other : PathEnd} (different : other ≠ side) (near far : α) :
    other.pair near far = side.pair far near := by
  cases side <;> cases other <;> first | rfl | exact absurd rfl different

theorem readIn_pair {near far : Pattern} {value : Value} :
    (Pattern.tuple (side.pair near far)).ReadIn env value ↔
      ∃ first last, value = .tuple (side.pair first last) ∧
      near.ReadIn env first ∧ far.ReadIn env last := by
  cases side with
  | target => exact Pattern.readIn_two
  | start =>
      rw [pair, Pattern.readIn_two]
      constructor
      · intro read
        obtain ⟨left, right, isPair, readLeft, readRight⟩ := read
        exact ⟨right, left, isPair, readRight, readLeft⟩
      · intro read
        obtain ⟨first, last, isPair, readFirst, readLast⟩ := read
        exact ⟨last, first, isPair, readLast, readFirst⟩

theorem valueIn_pair {near far : Name} {row : Value} :
    (Expr.row (side.pair near far)).valueIn env = some row ↔
      ∃ first last, row = .tuple (side.pair first last) ∧
      env.lookup near = some first ∧ env.lookup far = some last := by
  cases side with
  | target => exact Expr.valueIn_two
  | start =>
      rw [pair, Expr.valueIn_two]
      constructor
      · intro built
        obtain ⟨left, right, isPair, isLeft, isRight⟩ := built
        exact ⟨right, left, isPair, isRight, isLeft⟩
      · intro built
        obtain ⟨first, last, isPair, isFirst, isLast⟩ := built
        exact ⟨last, first, isPair, isLast, isFirst⟩

theorem mem_vars_pair {near far name : Name} :
    name ∈ (Pattern.tuple (side.pair (.var near) (.var far))).vars ↔
      name = near ∨ name = far := by
  rw [Pattern.mem_vars]
  cases side <;>
    simp [pair, Pattern.occurrences, Pattern.occurrencesList, or_comm]

theorem plain_pair {near far : Value} :
    (Value.tuple (side.pair near far)).toExpr?.isSome = true ↔
      near.toExpr?.isSome = true ∧ far.toExpr?.isSome = true := by
  rw [Value.plain_tuple_iff]
  cases side <;> simp [pair, and_comm]

end PathEnd

namespace StepClause

variable {clause : StepClause}

/-- The variables that a clause mentions. -/
def mentions : StepClause → List Name
  | scan generator residual =>
      generator.pattern.occurrences ++ generator.source.freeVars ++
        residual.flatMap Expr.freeVars
  | filter condition => condition.freeVars
  | recursive _ argument => argument.occurrences

theorem isAmong_mentions (clause : StepClause) :
    clause.IsAmong clause.mentions := by
  cases clause with
  | scan generator residual =>
      refine ⟨?_, ?_, ?_⟩
      · exact fun name occurs =>
          List.mem_append_left _ (List.mem_append_left _ occurs)
      · exact fun name isFree =>
          List.mem_append_left _ (List.mem_append_right _ isFree)
      · intro condition member name isFree
        exact List.mem_append_right _
          (List.mem_flatMap.mpr ⟨condition, member, isFree⟩)
  | filter condition => exact List.Subset.refl _
  | recursive function argument => exact List.Subset.refl _

/-- What is no recursive call does not depend on the increment. -/
theorem HoldsIn.of_argument?_eq_none {evaluate : Env → Expr → Outcome Value}
    {new other : List Value} (holds : clause.HoldsIn evaluate new env)
    (uncalled : clause.argument? = none) :
    clause.HoldsIn evaluate other env := by
  cases clause with
  | scan generator residual => exact holds
  | filter condition => exact holds
  | recursive function argument => cases uncalled

theorem eq_recursive_of_argument? {argument : Pattern}
    (called : clause.argument? = some argument) :
    ∃ function, clause = recursive function argument := by
  cases clause with
  | recursive function other =>
      cases called
      exact ⟨function, rfl⟩
  | _ => cases called

end StepClause

namespace StepCase

/-- A step joins an edge to the front of a path, seen from an end of the
path. -/
structure JoinsEdge (side : PathEnd) (near middle far : Name)
    (generator : Generator) (case : StepCase) : Prop where
  not_near : middle ≠ near
  not_far : middle ≠ far
  pattern : generator.pattern = .tuple (side.pair (.var near) (.var middle))
  clauses : ∃ function,
    let call := StepClause.recursive function
      (.tuple (side.pair (.var middle) (.var far)))
    case.clauses = [.scan generator [], call] ∨
    case.clauses = [call, .scan generator []]

/-- A step joins an edge between two goals to the front of a path, seen from one
of them. -/
def HopsTo (side : PathEnd) (goals : List Name) (generator : Generator)
    (case : StepCase) : Prop :=
  ∃ near middle far, goals = side.pair near far ∧
    case.JoinsEdge side near middle far generator

/-- A step hands on an end of the path of its recursive call, and nothing else
mentions that end. -/
def HandsOn (side : PathEnd) (goals : List Name) (case : StepCase) : Prop :=
  ∃ near far argument,
    goals = side.pair near far ∧
    case.clauses.filterMap StepClause.argument? =
      [.tuple (side.pair argument (.var far))] ∧
    far ∉ argument.occurrences ∧
    ∀ clause ∈ case.clauses, clause.argument? = none → far ∉ clause.mentions

theorem isHop_iff {start target : Name} {first second : Name × Name} :
    isHop start target first second = true ↔
      first.1 = start ∧ second.2 = target ∧ first.2 = second.1 ∧
      first.2 ≠ start ∧ first.2 ≠ target := by
  simp [isHop, and_assoc]

/-- Two patterns of different variables. -/
theorem eq_of_pair? {pattern : Pattern} {names : Name × Name}
    (paired : pattern.pair? = some names) :
    pattern = .tuple [.var names.1, .var names.2] := by
  unfold Pattern.pair? at paired
  split at paired
  · split at paired
    · cases paired
      rfl
    · cases paired
  · cases paired

/-- A step composes paths if it joins an edge and its recursive call in one
order or the other. -/
theorem composesPaths_cases {case : StepCase} {goals : List Name}
    (composes : case.composesPaths goals = true) :
    ∃ generator function argument start target edge path,
      (case.clauses = [.scan generator [], .recursive function argument] ∨
        case.clauses = [.recursive function argument, .scan generator []]) ∧
      goals = [start, target] ∧ generator.pattern.pair? = some edge ∧
      argument.pair? = some path ∧
      (isHop start target edge path = true ∨
        isHop start target path edge = true) := by
  unfold composesPaths at composes
  dsimp only at composes
  split at composes
  · next generator function argument isStep =>
      split at composes
      · next start target edge path isEdge isPath =>
          rw [Bool.or_eq_true] at composes
          exact ⟨generator, function, argument, start, target, edge, path,
            .inl isStep, rfl, isEdge, isPath, composes⟩
      · cases composes
  · next function argument generator isStep =>
      split at composes
      · next start target edge path isEdge isPath =>
          rw [Bool.or_eq_true] at composes
          exact ⟨generator, function, argument, start, target, edge, path,
            .inr isStep, rfl, isEdge, isPath, composes⟩
      · cases composes
  · cases composes

/-- Steps that compose paths put an edge in front, seen from one end or the
other. -/
theorem exists_hopsTo {case : StepCase} {goals : List Name}
    (composes : case.composesPaths goals = true) :
    ∃ side generator, case.HopsTo side goals generator := by
  obtain ⟨generator, function, argument, start, target, ⟨first, second⟩,
    ⟨third, fourth⟩, isStep,
    isGoals, isEdge, isPath, hop⟩ := composesPaths_cases composes
  have edge := eq_of_pair? isEdge
  have path := eq_of_pair? isPath
  subst path
  rcases hop with inFront | behind
  · obtain ⟨rfl, rfl, rfl, notStart, notTarget⟩ := isHop_iff.mp inFront
    exact ⟨.target, generator, first, second, fourth, isGoals, notStart,
      notTarget, edge, function, isStep⟩
  · obtain ⟨rfl, rfl, rfl, notStart, notTarget⟩ := isHop_iff.mp behind
    exact ⟨.start, generator, second, fourth, third, isGoals, notTarget,
      notStart, edge, function, isStep⟩

section Paths

variable {session : Session} {goals : List Name} {case : StepCase}
  {side : PathEnd}
  {near middle far : Name} {generator : Generator} {env : Env}
    {kind : CollectionKind}
  {edges new : List Value} {row : Value}

theorem JoinsEdge.mem_produced
    (joins : case.JoinsEdge side near middle far generator) {name : Name} :
    name ∈ case.clauses.flatMap StepClause.produced ↔
      name = near ∨ name = middle ∨ name = far := by
  obtain ⟨function, isStep⟩ := joins.clauses
  have both : name ∈ case.clauses.flatMap StepClause.produced ↔
      name ∈ generator.pattern.vars ∨
        name ∈ (Pattern.tuple (side.pair (.var middle) (.var far))).vars := by
    rcases isStep with isStep | isStep
    · simp [isStep, StepClause.produced]
    · simp [isStep, StepClause.produced, or_comm]
  rw [both, joins.pattern, PathEnd.mem_vars_pair, PathEnd.mem_vars_pair]
  tauto

/-- The clauses hold where the variables have the values of an edge and a
path. -/
theorem JoinsEdge.holdsIn_iff
    (joins : case.JoinsEdge side near middle far generator)
    (scans : session.evalIn (Session.root 0) env generator.source =
      .ok (.collection kind edges)) :
    (∀ clause ∈ case.clauses,
      clause.HoldsIn (session.evalIn (Session.root 0)) new env) ↔
      ∃ first joint last, .tuple (side.pair first joint) ∈ edges ∧
        .tuple (side.pair joint last) ∈ new ∧ env.lookup near = some first ∧
        env.lookup middle = some joint ∧ env.lookup far = some last := by
  obtain ⟨function, isStep⟩ := joins.clauses
  have both : (∀ clause ∈ case.clauses,
      clause.HoldsIn (session.evalIn (Session.root 0)) new env) ↔
        (∃ row ∈ edges, generator.pattern.ReadIn env row) ∧
        ∃ row ∈ new, (Pattern.tuple (side.pair (.var middle) (.var far))).ReadIn
          env row := by
    rcases isStep with isStep | isStep
    · simp [isStep, StepClause.HoldsIn, scans]
    · simp [isStep, StepClause.HoldsIn, scans, and_comm]
  rw [both, joins.pattern]
  constructor
  · intro holds
    obtain ⟨⟨edge, isEdge, readEdge⟩, path, isPath, readPath⟩ := holds
    obtain ⟨first, joint, isPair, foundFirst, foundJoint⟩ :=
      PathEnd.readIn_pair.mp readEdge
    obtain ⟨other, last, isOther, foundOther, foundLast⟩ :=
      PathEnd.readIn_pair.mp readPath
    cases Option.some.inj (foundJoint.symm.trans foundOther)
    subst isPair isOther
    exact ⟨first, joint, last, isEdge, isPath, foundFirst, foundJoint,
      foundLast⟩
  · intro found
    obtain ⟨first, joint, last, isEdge, isPath, foundFirst, foundJoint,
      foundLast⟩ := found
    exact ⟨⟨_, isEdge,
      PathEnd.readIn_pair.mpr ⟨first, joint, rfl, foundFirst, foundJoint⟩⟩,
      ⟨_, isPath, PathEnd.readIn_pair.mpr
        ⟨joint, last, rfl, foundJoint, foundLast⟩⟩⟩

/-- What follows by a step that joins edges to the front of paths. -/
theorem HopsTo.derives_iff (hops : case.HopsTo side goals generator)
    (distinct : goals.Nodup) (scans : ∀ chosen : Env,
      chosen.Chooses (case.clauses.flatMap StepClause.produced) →
      session.evalIn (Session.root 0) (chosen ++ env) generator.source =
        .ok (.collection kind edges))
    (edgesPlain : ∀ row ∈ edges, row.toExpr?.isSome = true)
    (newPlain : ∀ row ∈ new, row.toExpr?.isSome = true) :
    case.Derives session goals env new row ↔ ∃ first joint last,
      .tuple (side.pair first joint) ∈ edges ∧
      .tuple (side.pair joint last) ∈ new ∧
        row = .tuple (side.pair first last) := by
  obtain ⟨near, middle, far, isGoals, joins⟩ := hops
  subst isGoals
  constructor
  · intro derives
    obtain ⟨chosen, chooses, holds, isRow⟩ := derives
    obtain ⟨first, joint, last, isEdge, isPath, foundFirst, foundJoint,
      foundLast⟩ :=
      (joins.holdsIn_iff (scans chosen chooses)).mp holds
    obtain ⟨begin, finish, isPair, foundBegin, foundFinish⟩ :=
      PathEnd.valueIn_pair.mp isRow
    rw [chooses.lookup_append (joins.mem_produced.mpr (.inl rfl)),
      foundBegin] at foundFirst
    rw [chooses.lookup_append (joins.mem_produced.mpr (.inr (.inr rfl))),
      foundFinish] at foundLast
    cases foundFirst
    cases foundLast
    exact ⟨first, joint, last, isEdge, isPath, isPair⟩
  · intro found
    obtain ⟨first, joint, last, isEdge, isPath, isRow⟩ := found
    subst isRow
    have nearFar : near ≠ far := by
      cases side <;> simpa [PathEnd.pair, eq_comm] using distinct
    let chosen : Env := [(near, first), (middle, joint), (far, last)]
    have foundFirst : chosen.lookup near = some first := List.lookup_cons_self
    have foundJoint : chosen.lookup middle = some joint := by
      have different : (middle == near) = false := by simpa using joins.not_near
      simp only [chosen, List.lookup_cons, different, BEq.rfl]
    have foundLast : chosen.lookup far = some last := by
      have different : (far == near) = false := by simpa using nearFar.symm
      have distinctMiddle : (far == middle) = false := by
        simpa using joins.not_far.symm
      simp only [chosen, List.lookup_cons, different, distinctMiddle, BEq.rfl]
    have chooses :
      chosen.Chooses (case.clauses.flatMap StepClause.produced) := by
      have edgePlain := PathEnd.plain_pair.mp (edgesPlain _ isEdge)
      have pathPlain := PathEnd.plain_pair.mp (newPlain _ isPath)
      apply Env.Chooses.of_entries
      · intro name
        rw [joins.mem_produced]
        simp [chosen]
      · simp [chosen, edgePlain, pathPlain]
    refine ⟨chosen, chooses, ?_, ?_⟩
    · apply (joins.holdsIn_iff (scans chosen chooses)).mpr
      refine ⟨first, joint, last, isEdge, isPath, ?_, ?_, ?_⟩
      · rw [List.lookup_append, foundFirst, Option.some_or]
      · rw [List.lookup_append, foundJoint, Option.some_or]
      · rw [List.lookup_append, foundLast, Option.some_or]
    · exact PathEnd.valueIn_pair.mpr ⟨first, last, rfl, foundFirst, foundLast⟩

/-- A step that hands on an end does so for each value at that end. -/
theorem HandsOn.exists_derives (hands : case.HandsOn side goals)
    (distinct : goals.Nodup)
    (covered : goals ⊆ case.clauses.flatMap StepClause.produced)
    (uniform : session.Uniform) (free : env.IsFunctionFree)
    (plain : ∀ generator residual, .scan generator residual ∈ case.clauses →
      session.YieldsPlainly env generator.source)
    (derives : case.Derives session goals env new row) :
    ∃ first joint last, .tuple (side.pair joint last) ∈ new ∧
      row = .tuple (side.pair first last) ∧
      ∀ other, other.toExpr?.isSome = true →
        case.Derives session goals env [.tuple (side.pair joint other)]
          (.tuple (side.pair first other)) := by
  obtain ⟨near, far, argument, isGoals, single, notArgument, unmentioned⟩ :=
    hands
  subst isGoals
  obtain ⟨chosen, chooses, holds, isRow⟩ := derives
  obtain ⟨first, last, isPair, foundFirst, foundLast⟩ :=
    PathEnd.valueIn_pair.mp isRow
  subst isPair
  have nearFar : near ≠ far := by
    cases side <;> simpa [PathEnd.pair, eq_comm] using distinct
  have farProduced : far ∈ case.clauses.flatMap StepClause.produced :=
    covered (PathEnd.mem_pair.mpr (.inr rfl))
  obtain ⟨clause, isClause, called⟩ : ∃ clause ∈ case.clauses,
      clause.argument? = some (.tuple (side.pair argument (.var far))) := by
    apply List.mem_filterMap.mp
    rw [single]
    exact List.mem_cons_self
  obtain ⟨function, isCall⟩ := StepClause.eq_recursive_of_argument? called
  have callHolds := holds clause isClause
  rw [isCall] at callHolds
  obtain ⟨path, isPath, read⟩ := callHolds
  obtain ⟨joint, value, isValue, readJoint, foundValue⟩ :=
    PathEnd.readIn_pair.mp read
  subst isValue
  have sameLast : (chosen ++ env).lookup far = some value := foundValue
  rw [chooses.lookup_append farProduced, foundLast] at sameLast
  cases sameLast
  refine ⟨first, joint, last, isPath, rfl, ?_⟩
  intro other otherPlain
  have changed {name : Name} (different : name ≠ far) :
      ((far, other) :: chosen ++ env).lookup name =
      (chosen ++ env).lookup name := by
    have unequal : (name == far) = false := by simpa using different
    rw [List.cons_append, List.lookup_cons, unequal]
  refine ⟨(far, other) :: chosen, chooses.cons farProduced otherPlain, ?_, ?_⟩
  · intro clause isClause
    cases called : clause.argument? with
    | none =>
        apply ((holds clause isClause).of_argument?_eq_none called).congr
          uniform free
          (chooses.extendsPlainly env) _ clause.isAmong_mentions _ (.root 0)
        · intro generator residual isScan
          subst isScan
          exact plain generator residual isClause
        · intro name mentioned
          apply changed
          intro isFar
          exact unmentioned clause isClause called (isFar ▸ mentioned)
    | some pattern =>
        have isArgument : pattern ∈
          case.clauses.filterMap StepClause.argument? :=
          List.mem_filterMap.mpr ⟨clause, isClause, called⟩
        rw [single, List.mem_singleton] at isArgument
        subst isArgument
        obtain ⟨function, isCall⟩ := StepClause.eq_recursive_of_argument? called
        subst isCall
        refine ⟨_, List.mem_cons_self,
          PathEnd.readIn_pair.mpr ⟨joint, other, rfl, ?_, ?_⟩⟩
        · apply readJoint.congr
          intro name occurs
          apply changed
          intro isFar
          exact notArgument (isFar ▸ occurs)
        · exact List.lookup_cons_self
  · apply PathEnd.valueIn_pair.mpr
    refine ⟨first, other, rfl, ?_, List.lookup_cons_self⟩
    have unequal : (near == far) = false := by simpa using nearFar
    rw [List.lookup_cons, unequal]
    exact foundFirst

end Paths

end StepCase

end RecursiveQuery
