import RecursiveQuery.Proofs.PathTree

/-!
# Plans of path predicates

The query of all paths is planned as a fixpoint over the base relation, whose
step joins the step relation with the increment.  All names that the plan
introduces are new.
-/

namespace RecursiveQuery

namespace PathPredicate

variable (predicate : PathPredicate) {program : Program} {supply : NameSupply}
variable {middle other increment : Name} {source : Expr → Expr}
  {settings : Settings} {joins : List Name}

/-- The scans of a step: the increment stands in for the path. -/
def stepScans (source : Expr) (middle other increment : Name) : List Scan :=
  match predicate.linearity with
  | .right =>
      [⟨.tuple [.var "x", .var middle], some source⟩,
        ⟨.tuple [.var other, .var "y"], some (.var increment)⟩]
  | .left =>
      [⟨.tuple [.var "x", .var middle], some (.var increment)⟩,
        ⟨.tuple [.var other, .var "y"], some source⟩]

/-- The two intermediate variables of a step are equal. -/
def stepCondition (middle other : Name) : Expr :=
  match predicate.linearity with
  | .right => .equals (.var middle) (.var other)
  | .left => .equals (.var other) (.var middle)

/-- The rows that a step adds. -/
def stepBody (source : Expr) (middle other increment : Name) : Expr :=
  .collect (.filtered (predicate.stepScans source middle other increment)
    [predicate.stepCondition middle other] (.row ["x", "y"]))

/-- The plan of the query of all paths. -/
def planOf (source : Expr) (middle other found increment : Name) : Generator :=
  ⟨.tuple [.var "x", .var "y"],
    .apply (.apply (.var "List.iterate") (.var "b"))
      (.lambda (.tuple [.var found, .var increment])
        (predicate.stepBody source middle other increment)),
    .list, .finite⟩

/-- What a step scans for its step relation: that relation, or the rows found
so far if the base relation takes steps. -/
inductive StepSource (found : Name) : Expr → Prop where
  | relation : StepSource found (.var predicate.stepName)
  | accumulated (linear : predicate.linearity = .right)
      (same : predicate.stepName = "b") : StepSource found (.var found)

theorem scansOf_run_right (linear : predicate.linearity = .right)
    (notStart : middle ≠ "x") (notEnd : middle ≠ "y") :
    (StepCase.scansOf increment source (predicate.stepClauses middle other)
      []).run supply =
      let copy := supply.freshName middle
      ((predicate.stepScans (source (.var predicate.stepName)) middle copy
        increment,
        [predicate.stepCondition middle copy]), supply.reserve copy) := by
  have free : "y" ∉ [] ++ ["x", middle] := by simp [notEnd.symm]
  simp only [stepClauses, stepScans, stepCondition, linear, stepGenerator]
  rw [StepCase.scansOf_run_scan,
    Pattern.renameClashes_run_none notStart.symm (by simp) (by simp)]
  dsimp only
  rw [Pattern.vars_pair notStart.symm, StepCase.scansOf_run_recursive,
    Pattern.renameClashes_run_first notEnd (by simp) free]
  rfl

theorem scansOf_run_left (linear : predicate.linearity = .left)
    (notStart : middle ≠ "x") (notEnd : middle ≠ "y") (copyStart : other ≠ "x")
    (copyEnd : other ≠ "y") (copyMiddle : other ≠ middle) :
    (StepCase.scansOf increment source (predicate.stepClauses middle other)
      []).run supply =
      ((predicate.stepScans (source (.var predicate.stepName)) middle other
        increment, [predicate.stepCondition middle other]), supply) := by
  have freeCopy : other ∉ [] ++ ["x", middle] := by simp [copyStart, copyMiddle]
  have freeEnd : "y" ∉ [] ++ ["x", middle] := by simp [notEnd.symm]
  simp only [stepClauses, stepScans, stepCondition, linear, stepGenerator]
  rw [StepCase.scansOf_run_recursive,
    Pattern.renameClashes_run_none notStart.symm (by simp) (by simp)]
  dsimp only
  rw [Pattern.vars_pair notStart.symm, StepCase.scansOf_run_scan,
    Pattern.renameClashes_run_none copyEnd freeCopy freeEnd]
  rfl

/-- In either form the second intermediate variable is a name of its own. -/
theorem exists_scansOf_run {later : NameSupply} (increment : Name)
    (analysed : predicate.Analysed program middle other supply)
    (grown : ∀ name ∈ supply.used, name ∈ later.used) (source : Expr → Expr) :
    ∃ copy last,
      (StepCase.scansOf increment source (predicate.stepClauses middle other)
        []).run later =
        ((predicate.stepScans (source (.var predicate.stepName)) middle copy
          increment, [predicate.stepCondition middle copy]), last) ∧
      Intermediate program copy ∧ copy ≠ middle ∧
      ∀ name ∉ supply.used, name ∈ later.used → copy ≠ name := by
  have notStart : middle ≠ "x" := analysed.intermediate.ne (by decide)
  have notEnd : middle ≠ "y" := analysed.intermediate.ne (by decide)
  cases linear : predicate.linearity with
  | right =>
      have fresh := later.freshName_not_mem middle
      refine ⟨_, _, predicate.scansOf_run_right linear notStart notEnd,
        ?_, ?_, ?_⟩
      · apply analysed.prepared.intermediate
        intro used
        exact fresh (grown _ used)
      · intro equal
        rw [equal] at fresh
        exact fresh (grown _ analysed.middleUsed)
      · intro name _ used equal
        rw [equal] at fresh
        exact fresh used
  | left =>
      obtain ⟨intermediate, different, used⟩ := analysed.copy linear
      refine ⟨other, later, ?_, intermediate, different, ?_⟩
      · exact predicate.scansOf_run_left linear notStart notEnd
          (intermediate.ne (by decide)) (intermediate.ne (by decide)) different
      · rintro name unused _ rfl
        exact unused used

/-- The names of a plan mean nothing else, and no two of them are the same. -/
structure PlanNames (program : Program) (middle other found increment : Name) :
    Prop where
  intermediate : ∀ name ∈ [middle, other, found, increment],
    Intermediate program name
  distinct : [middle, other, found, increment].Nodup

theorem accumulatedSource?_recursion :
    (predicate.recursion middle other joins).accumulatedSource? settings =
      if settings.joinSource = .accumulated then some (.var "b") else none := by
  rw [Recursion.accumulatedSource?]
  cases settings.joinSource <;> rfl

/-- Only the right-linear form over a single relation accumulates. -/
theorem stepSource_eq (settings : Settings) {found : Name} :
    predicate.StepSource found
      ((predicate.recursion middle other joins).stepSource settings
      ⟨predicate.stepClauses middle other, joins⟩ found
        (.var predicate.stepName)) := by
  rw [Recursion.stepSource, Recursion.replacedSource?,
    accumulatedSource?_recursion]
  cases linear : predicate.linearity with
  | left =>
      have plain :
        StepCase.composesPaths ⟨predicate.stepClauses middle other, joins⟩
          (predicate.recursion middle other joins).goals = false := by
        rw [stepClauses, linear]
        rfl
      simp only [plain, Bool.false_eq_true, if_false]
      exact .relation
  | right =>
      have replace : ∀ accumulated : Option Expr,
          (accumulated = none ∨ accumulated = some (.var "b")) →
          predicate.StepSource found
            (if accumulated = some (.var predicate.stepName) then
            .var found else .var predicate.stepName) := by
        rintro accumulated (rfl | rfl)
        · exact .relation
        · by_cases same : predicate.stepName = "b"
          · rw [same, if_pos rfl]
            exact .accumulated linear same
          · have other : some (Expr.var "b") ≠
              some (.var predicate.stepName) := by
              simpa using Ne.symm same
            rw [if_neg other]
            exact .relation
      apply replace
      split
      · split
        · exact .inr rfl
        · exact .inl rfl
      · exact .inl rfl

theorem plan_run (settings : Settings) (joins : List Name)
    (analysed : predicate.Analysed program middle other supply) :
    ∃ source copy found increment later,
      ((predicate.recursion middle other joins).plan settings).run supply =
        (predicate.planOf source middle copy found increment, later) ∧
      predicate.StepSource found source ∧
      PlanNames program middle copy found increment := by
  obtain ⟨found, foundFresh, foundRun⟩ :=
    NameSupply.exists_acquire_run "old" supply
  obtain ⟨increment, incrementFresh, incrementRun⟩ :=
    NameSupply.exists_acquire_run "new" (supply.reserve found)
  have grown : ∀ name ∈ supply.used,
      name ∈ ((supply.reserve found).reserve increment).used := by
    intro name used
    simp [used]
  obtain ⟨copy, later, scansRun, copyIntermediate, copyMiddle, copyNew⟩ :=
    predicate.exists_scansOf_run increment analysed grown
      ((predicate.recursion middle other joins).stepSource settings
        ⟨predicate.stepClauses middle other, joins⟩ found)
  have incrementUnused : increment ∉ supply.used := fun used =>
    incrementFresh (List.mem_cons_of_mem _ used)
  refine ⟨_, copy, found, increment, later,
    Recursion.plan_run_single foundRun incrementRun scansRun,
    predicate.stepSource_eq settings, ?_, ?_⟩
  · intro name member
    simp only [List.mem_cons, List.not_mem_nil, or_false] at member
    rcases member with rfl | rfl | rfl | rfl
    · exact analysed.intermediate
    · exact copyIntermediate
    · exact analysed.prepared.intermediate foundFresh
    · exact analysed.prepared.intermediate incrementUnused
  · have middleFound : middle ≠ found := by
      rintro rfl
      exact foundFresh analysed.middleUsed
    have middleIncrement : middle ≠ increment := by
      rintro rfl
      exact incrementUnused analysed.middleUsed
    have copyFound : copy ≠ found := copyNew found foundFresh (by simp)
    have copyIncrement : copy ≠ increment :=
      copyNew increment incrementUnused (by simp)
    have foundIncrement : found ≠ increment := by
      rintro rfl
      exact incrementFresh List.mem_cons_self
    simp [copyMiddle.symm, middleFound, middleIncrement, copyFound,
      copyIncrement, foundIncrement]


theorem substitute_run_body :
    (predicate.body.substitute [("x", .var "x"), ("y", .var "y")]).run supply =
      (predicate.body, supply) := by
  obtain ⟨base, step, linearity, baseFirst⟩ := predicate
  cases step <;> cases linearity <;> cases baseFirst <;> rfl

/-- The names that the inverter reserves for the query of all paths. -/
def reserved (program : Program) : NameSupply :=
  .reserving
    (predicate.body.allNames ++ (call "x" "y").allNames ++ ["x", "y"] ++ [] ++
    program.names ++ param.vars ++ Builtin.names)

theorem prepared_reserved : Prepared program (predicate.reserved program) where
  names := fun name member => by simp [reserved, NameSupply.reserving, member]
  known := fun name member => by
    simp only [knownNames, List.mem_append] at member
    rcases member with goal | builtin
    · have argument : name ∈ (call "x" "y").allNames :=
        List.mem_cons_of_mem _ goal
      simp [reserved, NameSupply.reserving, argument]
    · simp [reserved, NameSupply.reserving, builtin]
  middle := by
    have mentioned : "z" ∈ predicate.body.allNames := by
      rw [body]
      split <;> simp [stepArm, stepQuery, Expr.allNames, Expr.allNamesQuery,
        Expr.allNamesScans, Pattern.occurrences]
    simp [reserved, NameSupply.reserving, mentioned]

/-- The parameters of the predicate stand for themselves. -/
def shape : CallShape :=
  ⟨["x", "y"], [("x", .var "x"), ("y", .var "y")],
    .tuple [.var "x", .var "y"], []⟩

theorem exists_invertBody_run (declared : predicate.DeclaredIn program)
    (allowed : 1 ≤ settings.maxStepCases) :
    ∃ source middle other found increment later,
      ((PredicateInverter.ofProgram program settings).invertBody "path"
        predicate.body [] shape).run (predicate.reserved program) =
          (.ok ⟨predicate.planOf source middle other found increment, []⟩,
            later) ∧
      predicate.StepSource found source ∧
      PlanNames program middle other found increment := by
  obtain ⟨middle, other, joins, built, buildRun, joined, analysed⟩ :=
    predicate.build_run_body declared predicate.prepared_reserved
  obtain ⟨source, copy, found, increment, later, planRun, stepSource, names⟩ :=
    predicate.plan_run settings joins analysed
  have notStart : middle ≠ "x" := analysed.intermediate.ne (by decide)
  have notEnd : middle ≠ "y" := analysed.intermediate.ne (by decide)
  have recursion := predicate.recursion_ofTree allowed joined notStart notEnd
    fun linear => (analysed.copy linear).1.ne (by decide)
  refine ⟨source, middle, copy, found, increment, later, ?_, stepSource, names⟩
  rw [PredicateInverter.invertBody, shape, Naming.run_bind, substitute_run_body]
  change StateT.run
    (AnalysisTree.build program (Inversion.base program) ["path"] goals
    predicate.body >>= _) _ = _
  rw [Naming.run_bind, buildRun]
  dsimp only [PredicateInverter.ofProgram]
  rw [show Recursion.ofTree settings (Scope.initial ["x", "y"] []).goals
    (predicate.tree middle other joins) = _ from recursion]
  change StateT.run (Recursion.plan _ settings >>= _) built = _
  rw [Naming.run_bind, planRun]
  rfl

/-- The query of all paths is planned as a fixpoint over the base relation. -/
theorem exists_plan (declared : predicate.DeclaredIn program)
    (enabled : settings.enabled = true) (allowed : 1 ≤ settings.maxStepCases) :
    ∃ source middle other found increment,
      (PredicateInverter.ofProgram program settings).plan query =
        .ok (.collect
          ⟨[(predicate.planOf source middle other found increment).scan], []⟩) ∧
      predicate.StepSource found source ∧
      PlanNames program middle other found increment := by
  obtain ⟨source, middle, other, found, increment, later, bodyRun, stepSource,
    names⟩ :=
    predicate.exists_invertBody_run declared allowed
  refine ⟨source, middle, other, found, increment, ?_, stepSource, names⟩
  have inverted :
    (PredicateInverter.ofProgram program settings).invert (call "x" "y")
      ["x", "y"] [] =
        .ok ⟨predicate.planOf source middle other found increment, []⟩ := by
    rw [PredicateInverter.invert,
      show (PredicateInverter.ofProgram program settings).settings.enabled =
        true from enabled]
    simp only [Bool.not_true, Bool.false_eq_true, if_false, call,
      Expr.namedCall?, PredicateInverter.ofProgram, declared.path]
    exact congrArg Prod.fst bodyRun
  have called : (PredicateInverter.ofProgram program settings).isCall
    (call "x" "y") = true := by
    simp only [PredicateInverter.isCall, PredicateInverter.ofProgram, call,
      Expr.namedCall?, declared.path]
    rfl
  have first : [call "x" "y"].findIdx?
    (PredicateInverter.ofProgram program settings).isCall = some 0 := by
    simp [List.findIdx?_cons, called]
  have planned : (PredicateInverter.ofProgram program settings).planQuery
      ⟨[⟨param, none⟩], [.filter (call "x" "y")]⟩ =
        .ok ⟨[(predicate.planOf source middle other found increment).scan],
          []⟩ := by
    have alone : (call "x" "y").conjuncts = [call "x" "y"] := rfl
    simp only [PredicateInverter.planQuery, alone, first]
    change ((PredicateInverter.ofProgram program settings).invert (call "x" "y")
      ["x", "y"] [] >>= _) = _
    rw [inverted]
    rfl
  rw [query, PredicateInverter.plan, planned]
  rfl

end PathPredicate

end RecursiveQuery
