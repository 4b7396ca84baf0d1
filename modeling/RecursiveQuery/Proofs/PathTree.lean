import RecursiveQuery.Proofs.PathPredicate
import RecursiveQuery.Proofs.Planning

/-!
# Trees of path predicates

The body of a path predicate is analysed the same way whatever else the program
declares: the intermediate variable is renamed if the program knows its name,
and the tree describes a recursion with one step.
-/

namespace RecursiveQuery

namespace PathPredicate

variable {name middle : Name}

/-- The goals of a query of all paths. -/
def goals : Scope :=
  ⟨["x", "y"], [], []⟩

section Membership

variable {program : Program} {scope : Scope} {first second relation : Name}
  {decl : Decl}

theorem freeVars_membership :
    (membership first second relation).freeVars = [first, second, relation] :=
  rfl

theorem isGlobal_relation (declared : program.decl? relation = some decl)
    (notGoal : scope.isGoal relation = false)
    (notBound : scope.isBound relation = false) :
    scope.isGlobal program relation = true := by
  simp [Scope.isGlobal, notGoal, notBound, declared]

/-- The generator of a membership in a relation that is a known list. -/
theorem base_run_membership {active : List Name}
    (shape : (Expr.var relation).sourceShape program = ⟨.list, .finite⟩)
    (global : scope.isGlobal program relation = true)
    (fresh : scope.isBound second = false)
    (localName : scope.isGlobal program second = false) (supply : NameSupply) :
    (Inversion.base program active scope (membership first second relation)).run
    supply =
      let freshened :=
        ((Pattern.tuple [.var first, .var second]).freshen scope).run supply
      (.generated ⟨freshened.1.1, .var relation, .list, .finite⟩ freshened.1.2,
        freshened.2) := by
  have mentioned : second ∈
    scope.locals program (membership first second relation) := by
    rw [Scope.mem_locals, freeVars_membership]
    exact ⟨by simp, localName⟩
  have closed : scope.locals program (.var relation) = [] := by
    simp [Scope.locals, Expr.freeVars, global, Name.ascending]
  rw [membership, Inversion.base_run_member mentioned fresh, Inversion.ofMember,
    closed]
  simp only [List.find?_nil, Expr.toPattern?, Expr.toPatterns?, Option.map_some,
    shape]
  rfl

end Membership

section Clauses

variable {program : Program} {scope : Scope} {first second relation : Name}
variable {invert : Inverter}

theorem flatten_run_membership (supply : NameSupply) :
    (scope.flatten program (membership first second relation)).run supply =
      ([membership first second relation], supply) :=
  rfl

theorem build_run_membership {active : List Name} (size : Nat)
    (supply : NameSupply) :
    (AnalysisTree.buildWithin program invert active (size + 1) scope
        (membership first second relation)).run supply =
      let inverted :=
        (invert active scope (membership first second relation)).run supply
      (.terminal ⟨membership first second relation, .inverted inverted.1⟩,
        inverted.2) := by
  rw [AnalysisTree.buildWithin]
  change StateT.run
    (scope.flatten program (membership first second relation) >>= _) supply = _
  rw [Naming.run_bind, flatten_run_membership]
  simp only [if_true]
  rfl

theorem build_run_call (notBound : scope.isBound "path" = false)
    (notGoal : scope.isGoal "path" = false) (size : Nat) (supply : NameSupply) :
    (AnalysisTree.buildWithin program invert ["path"] (size + 1) scope
        (call first second)).run supply =
      (.terminal ⟨call first second,
        .recursive "path" (.tuple [.var first, .var second])⟩, supply) := by
  rw [AnalysisTree.buildWithin]
  change StateT.run (scope.flatten program (call first second) >>= _) supply = _
  have flattened : (scope.flatten program (call first second)).run supply =
      ([call first second], supply) := rfl
  rw [Naming.run_bind, flattened]
  simp only [if_true]
  simp [AnalysisTree.leaf, call, Expr.namedCall?, notBound, notGoal]
  rfl

end Clauses

/-- The goals and the builtins. -/
def knownNames : List Name :=
  ["x", "y"] ++ Builtin.names

/-- A supply that knows a program and the variables of a path predicate. -/
structure Prepared (program : Program) (supply : NameSupply) : Prop where
  names : program.names ⊆ supply.used
  known : knownNames ⊆ supply.used
  middle : "z" ∈ supply.used

theorem Prepared.reserve {program : Program} {supply : NameSupply}
    (prepared : Prepared program supply) (name : Name) :
    Prepared program (supply.reserve name) where
  names := fun _ member => List.mem_cons_of_mem _ (prepared.names member)
  known := fun _ member => List.mem_cons_of_mem _ (prepared.known member)
  middle := List.mem_cons_of_mem _ prepared.middle

/-- A variable that is neither declared nor a known name. -/
structure Intermediate (program : Program) (name : Name) : Prop where
  undeclared : program.decl? name = none
  unknown : name ∉ knownNames

theorem Prepared.intermediate {program : Program} {supply : NameSupply}
    (prepared : Prepared program supply) (fresh : name ∉ supply.used) :
    Intermediate program name where
  undeclared := by
    cases declared : program.decl? name with
    | none => rfl
    | some decl =>
        exact absurd
          (prepared.names (Program.mem_names_of_decl? declared)) fresh
  unknown := fun member => fresh (prepared.known member)

section StepArm

variable (predicate : PathPredicate) {program : Program} {supply : NameSupply}

theorem clashes_middle :
    goals.clashes program predicate.stepArm.freeVars "z" =
      (program.decl? "z").isSome := by
  obtain ⟨base, step, linearity, baseFirst⟩ := predicate
  cases step <;> cases linearity <;> rfl

theorem flatten_run_of_nameApart {renames : List (Name × Name)}
    {taken : List Name} {named later : NameSupply}
    (apart : (goals.nameApart program ["z"] predicate.stepArm.freeVars).run
      supply = ((renames, taken), named))
    (rename : (Scope.renameClauses renames
      [.andAlso (predicate.clauses "z").1 (predicate.clauses "z").2]).run
      named =
        ([.andAlso (predicate.clauses middle).1 (predicate.clauses middle).2],
          later)) :
    (goals.flatten program predicate.stepArm).run supply =
      ([(predicate.clauses middle).1, (predicate.clauses middle).2],
        later) := by
  have conjuncts : (Expr.andAlso (predicate.clauses middle).1
      (predicate.clauses middle).2).conjuncts =
        [(predicate.clauses middle).1, (predicate.clauses middle).2] := by
    cases linear : predicate.linearity <;>
      simp [clauses, linear, membership, call, Expr.conjuncts]
  have plain : ∀ query,
    Expr.existence query ∉ (Expr.andAlso (predicate.clauses middle).1
      (predicate.clauses middle).2).conjuncts := by
    rw [conjuncts]
    cases linear : predicate.linearity <;>
      simp [clauses, linear, membership, call]
  obtain ⟨nesting, size⟩ : ∃ nesting, predicate.stepArm.size = nesting + 2 := by
    cases linear : predicate.linearity <;>
      simp [stepArm, stepQuery, clauses, linear, membership, call, Expr.size,
        Expr.sizeQuery, Expr.sizeScans, Expr.sizeSteps, Expr.sizeList,
        Pattern.size]
  have flattened :
    (goals.flattenWithin program predicate.stepArm.size predicate.stepArm
      predicate.stepArm.freeVars).run supply =
        (([(predicate.clauses middle).1, (predicate.clauses middle).2], taken),
          later) := by
    have unwrapped : (goals.unwrap program predicate.stepQuery
        predicate.stepArm.freeVars).run supply =
          ((some [.andAlso (predicate.clauses middle).1
            (predicate.clauses middle).2], taken),
            later) := Scope.unwrap_run rfl apart rename
    rw [size]
    change StateT.run (goals.flattenWithin program (nesting + 2)
      (.existence predicate.stepQuery) predicate.stepArm.freeVars) supply = _
    rw [Scope.flattenWithin_run_existence _ unwrapped,
      Scope.flattenEach_run_cons, Scope.flattenWithin_run_of_plain _ _ plain,
      conjuncts]
    rfl
  rw [Scope.flatten, Naming.run_bind, flattened]
  rfl

/-- The recursive arm falls into its two clauses, over a variable that means
nothing else. -/
theorem flatten_run_stepArm (prepared : Prepared program supply) :
    ∃ middle later,
      (goals.flatten program predicate.stepArm).run supply =
        ([(predicate.clauses middle).1, (predicate.clauses middle).2], later) ∧
      Intermediate program middle ∧ middle ∈ later.used ∧
      Prepared program later := by
  have clashes : goals.clashes program predicate.stepArm.freeVars "z" =
      (program.decl? "z").isSome := predicate.clashes_middle
  cases declared : program.decl? "z" with
  | none =>
      have apart :
        (goals.nameApart program ["z"] predicate.stepArm.freeVars).run supply =
          (([], "z" :: predicate.stepArm.freeVars), supply) := by
        rw [declared] at clashes
        rw [Scope.nameApart, clashes]
        rfl
      refine ⟨"z", supply, predicate.flatten_run_of_nameApart apart ?_,
        ⟨declared, by decide⟩, prepared.middle, prepared⟩
      cases linear : predicate.linearity <;> simp only [clauses, linear] <;> rfl
  | some decl =>
      have apart :
        (goals.nameApart program ["z"] predicate.stepArm.freeVars).run supply =
          (([("z", supply.freshName "z")],
            supply.freshName "z" :: predicate.stepArm.freeVars),
            supply.reserve (supply.freshName "z")) := by
        rw [declared] at clashes
        rw [Scope.nameApart, clashes]
        rfl
      refine ⟨supply.freshName "z", supply.reserve (supply.freshName "z"),
        predicate.flatten_run_of_nameApart apart ?_,
        prepared.intermediate (supply.freshName_not_mem "z"),
        List.mem_cons_self,
        prepared.reserve _⟩
      cases linear : predicate.linearity <;>
        simp only [clauses, linear, stepName] <;> split <;> rfl

end StepArm

theorem Intermediate.ne {program : Program}
    (intermediate : Intermediate program middle) (known : name ∈ knownNames) :
    middle ≠ name := by
  rintro rfl
  exact intermediate.unknown known

theorem Intermediate.ne_of_decl? {program : Program} {decl : Decl}
    (intermediate : Intermediate program middle)
    (declared : program.decl? name = some decl) :
    middle ≠ name := by
  rintro rfl
  rw [intermediate.undeclared] at declared
  cases declared

variable (predicate : PathPredicate) {program : Program} {supply : NameSupply}

def stepGenerator (first second : Name) : Generator :=
  ⟨.tuple [.var first, .var second], .var predicate.stepName, .list, .finite⟩

/-- The step of a path predicate: the second variable between the step and the
path is another one in the left-linear form, where the path comes first. -/
def stepClauses (middle other : Name) : List StepClause :=
  match predicate.linearity with
  | .right =>
      [.scan (predicate.stepGenerator "x" middle) [],
        .recursive "path" (.tuple [.var middle, .var "y"])]
  | .left =>
      [.recursive "path" (.tuple [.var "x", .var middle]),
        .scan (predicate.stepGenerator other "y")
          [.equals (.var other) (.var middle)]]

/-- The trees of the two clauses. -/
def stepTrees (middle other : Name) : List AnalysisTree :=
  match predicate.linearity with
  | .right =>
      [.terminal ⟨membership "x" middle predicate.stepName,
          .inverted (.generated (predicate.stepGenerator "x" middle) [])⟩,
        .terminal ⟨call middle "y",
          .recursive "path" (.tuple [.var middle, .var "y"])⟩]
  | .left =>
      [.terminal ⟨call "x" middle,
        .recursive "path" (.tuple [.var "x", .var middle])⟩,
        .terminal ⟨membership middle "y" predicate.stepName,
          .inverted (.generated (predicate.stepGenerator other "y")
            [.equals (.var other) (.var middle)])⟩]

theorem Intermediate.isGlobal {middle : Name}
    (intermediate : Intermediate program middle) (scope : Scope) :
    scope.isGlobal program middle = false := by
  have builtin : middle ∉ Builtin.names := fun member =>
    intermediate.unknown (List.mem_append_right _ member)
  simp [Scope.isGlobal, intermediate.undeclared, builtin]

theorem DeclaresEdges.sourceShape {edges : List Edge}
    (declares : program.DeclaresEdges name edges) :
    (Expr.var name).sourceShape program = ⟨.list, .finite⟩ := by
  obtain ⟨type, declared, notBag⟩ := declares
  change SourceShape.ofDecl (Expr.shapeWithin program 32)
    (program.decl? name) = _
  rw [declared]
  cases type with
  | none => rfl
  | some type =>
      have kind : CollectionKind.ofType type = .list := by
        simp [CollectionKind.ofType, notBag type rfl]
      change SourceShape.mk (CollectionKind.ofType type) _ = _
      rw [kind]
      rfl

theorem stepName_mem : predicate.stepName = "b" ∨ predicate.stepName = "s" := by
  rw [stepName]
  split
  · exact .inr rfl
  · exact .inl rfl

theorem isGlobal_stepName (declared : predicate.DeclaredIn program)
    {scope : Scope} (scopeGoals : scope.goals = ["x", "y"])
    (free : scope.isBound predicate.stepName = false) :
    scope.isGlobal program predicate.stepName = true := by
  obtain ⟨type, found, _⟩ := declared.step
  refine isGlobal_relation found ?_ free
  rcases predicate.stepName_mem with
    name | name <;> simp [Scope.isGoal, scopeGoals, name]

section Scopes

variable {middle : Name} {scope : Scope}

/-- The step relation generates the intermediate variable in front of a path. -/
theorem base_run_step_free (declared : predicate.DeclaredIn program)
    (intermediate : Intermediate program middle)
    (scopeGoals : scope.goals = ["x", "y"])
    (free : ∀ name, scope.isBound name = false) (active : List Name) :
    (Inversion.base program active scope
      (membership "x" middle predicate.stepName)).run supply =
      (.generated (predicate.stepGenerator "x" middle) [], supply) := by
  have different : "x" ≠ middle := (intermediate.ne (by decide)).symm
  rw [base_run_membership (DeclaresEdges.sourceShape declared.step)
    (predicate.isGlobal_stepName declared scopeGoals (free _)) (free middle)
    (intermediate.isGlobal scope),
    Pattern.freshen_run_free (free "x") (free middle) different]
  rfl

/-- Behind a path the step relation generates a copy of the intermediate
variable. -/
theorem base_run_step_bound (declared : predicate.DeclaredIn program)
    (scopeGoals : scope.goals = ["x", "y"])
    (bound : scope.isBound middle = true) (freeEnd : scope.isBound "y" = false)
    (freeStep : scope.isBound predicate.stepName = false) (active : List Name) :
    (Inversion.base program active scope
      (membership middle "y" predicate.stepName)).run supply =
      (.generated (predicate.stepGenerator (supply.freshName middle) "y")
        [.equals (.var (supply.freshName middle)) (.var middle)],
        supply.reserve (supply.freshName middle)) := by
  have goal : scope.isGlobal program "y" = false := by
    simp [Scope.isGlobal, Scope.isGoal, scopeGoals]
  rw [base_run_membership (DeclaresEdges.sourceShape declared.step)
    (predicate.isGlobal_stepName declared scopeGoals freeStep) freeEnd goal,
    Pattern.freshen_run_bound bound freeEnd]
  rfl

end Scopes

theorem isBound_produce_pair {first second : Name} (different : first ≠ second)
    (source : Expr) (joins : List Name) :
    ((goals.withJoins joins).produce
      ⟨.tuple [.var first, .var second], source, .list, .finite⟩).isBound name =
        [first, second].contains name := by
  rw [Scope.isBound_produce, Pattern.vars_pair different]
  rfl

theorem buildEach_run_right (declared : predicate.DeclaredIn program)
    (linear : predicate.linearity = .right)
    (intermediate : Intermediate program middle) (size : Nat)
    (joins : List Name) (other : Name) :
    (AnalysisTree.buildEach
      (AnalysisTree.buildWithin program (Inversion.base program) ["path"]
        (size + 1))
      [(predicate.clauses middle).1, (predicate.clauses middle).2]
      (goals.withJoins joins)).run supply =
      (predicate.stepTrees middle other, supply) := by
  have different : "x" ≠ middle := (intermediate.ne (by decide)).symm
  have notPath : "path" ≠ middle :=
    (intermediate.ne_of_decl? declared.path).symm
  simp only [clauses, linear, stepTrees]
  rw [AnalysisTree.buildEach_run_cons, build_run_membership,
    predicate.base_run_step_free declared intermediate rfl fun _ => rfl]
  simp only [AnalysisTree.extend, stepGenerator]
  rw [AnalysisTree.buildEach_run_cons, build_run_call]
  · rfl
  · rw [isBound_produce_pair different]
    simp [notPath]
  · simp only [Scope.isGoal, Scope.goals_produce]
    rfl

theorem buildEach_run_left (declared : predicate.DeclaredIn program)
    (linear : predicate.linearity = .left)
    (intermediate : Intermediate program middle) (size : Nat)
    (joins : List Name) :
    (AnalysisTree.buildEach
      (AnalysisTree.buildWithin program (Inversion.base program) ["path"]
        (size + 1))
      [(predicate.clauses middle).1, (predicate.clauses middle).2]
      (goals.withJoins joins)).run supply =
        (predicate.stepTrees middle (supply.freshName middle),
          supply.reserve (supply.freshName middle)) := by
  have different : "x" ≠ middle := (intermediate.ne (by decide)).symm
  have notEnd : "y" ≠ middle := (intermediate.ne (by decide)).symm
  have notStep : predicate.stepName ≠ middle := by
    obtain ⟨type, found, _⟩ := declared.step
    exact (intermediate.ne_of_decl? found).symm
  have notStart : predicate.stepName ≠ "x" := by
    rcases predicate.stepName_mem with name | name <;> rw [name] <;> decide
  simp only [clauses, linear, stepTrees]
  rw [AnalysisTree.buildEach_run_cons, build_run_call rfl rfl]
  simp only [AnalysisTree.extend, Expr.toPattern?, Expr.toPatterns?,
    Option.map_some]
  rw [AnalysisTree.buildEach_run_cons, build_run_membership,
    predicate.base_run_step_bound declared]
  · rfl
  · exact Scope.goals_produce
  · simp [isBound_produce_pair different]
  · simp [isBound_produce_pair different, notEnd]
  · simp [isBound_produce_pair different, notStep, notStart]


theorem mem_joinVars (intermediate : Intermediate program middle) :
    middle ∈ AnalysisTree.joinVars program goals
      [(predicate.clauses middle).1, (predicate.clauses middle).2] := by
  have notStart : middle ≠ "x" := intermediate.ne (by decide)
  have notEnd : middle ≠ "y" := intermediate.ne (by decide)
  have goal : goals.isGoal middle = false := by
    simp [Scope.isGoal, goals, notStart, notEnd]
  have mentioned : middle ∈ (predicate.clauses middle).1.freeVars ∧
      middle ∈ (predicate.clauses middle).2.freeVars := by
    cases linear : predicate.linearity <;>
      simp [clauses, linear, membership, call, Expr.freeVars, Expr.freeVarsList]
  have first : middle ∈ goals.locals program (predicate.clauses middle).1 :=
    Scope.mem_locals.mpr ⟨mentioned.1, intermediate.isGlobal goals⟩
  have second : middle ∈ goals.locals program (predicate.clauses middle).2 :=
    Scope.mem_locals.mpr ⟨mentioned.2, intermediate.isGlobal goals⟩
  have shared : 2 ≤ (goals.locals program (predicate.clauses middle).1 ++
      goals.locals program (predicate.clauses middle).2).count middle := by
    rw [List.count_append]
    have := List.count_pos_iff.mpr first
    have := List.count_pos_iff.mpr second
    omega
  simp only [AnalysisTree.joinVars, List.flatMap_cons, List.flatMap_nil,
    List.append_nil, Name.mem_ascending, List.mem_filter, List.mem_append]
  exact ⟨.inl first, by simpa [goal] using shared⟩

def baseGenerator : Generator :=
  ⟨.tuple [.var "x", .var "y"], .var "b", .list, .finite⟩

def baseTree : AnalysisTree :=
  .terminal ⟨baseArm, .inverted (.generated baseGenerator [])⟩

theorem build_run_baseArm (declared : predicate.DeclaredIn program)
    (size : Nat) :
    (AnalysisTree.buildWithin program (Inversion.base program) ["path"]
      (size + 1) goals baseArm).run supply = (baseTree, supply) := by
  have global : goals.isGlobal program "b" = true := by
    obtain ⟨type, found, _⟩ := declared.base
    exact isGlobal_relation found rfl rfl
  rw [baseArm, build_run_membership,
    base_run_membership (DeclaresEdges.sourceShape declared.base) global
      rfl rfl, Pattern.freshen_run_free rfl rfl (by decide)]
  rfl

/-- The names of an analysed path predicate: a copy of the intermediate
variable exists already if the path stands in front of the step. -/
structure Analysed (program : Program) (middle other : Name)
    (later : NameSupply) : Prop where
  prepared : Prepared program later
  intermediate : Intermediate program middle
  middleUsed : middle ∈ later.used
  copy : predicate.linearity = .left →
    Intermediate program other ∧ other ≠ middle ∧ other ∈ later.used

theorem build_run_stepArm (declared : predicate.DeclaredIn program)
    (prepared : Prepared program supply) (size : Nat) :
    ∃ middle other joins later,
      (AnalysisTree.buildWithin program (Inversion.base program) ["path"]
        (size + 2) goals predicate.stepArm).run supply =
          (.sequence (predicate.stepTrees middle other) joins, later) ∧
      middle ∈ joins ∧ predicate.Analysed program middle other later := by
  obtain ⟨middle, named, flattened, intermediate, used, stillPrepared⟩ :=
    predicate.flatten_run_stepArm prepared
  have joined := predicate.mem_joinVars intermediate
  cases linear : predicate.linearity with
  | right =>
      refine ⟨middle, middle, _, named, ?_, joined, stillPrepared, intermediate,
        used, ?_⟩
      · exact AnalysisTree.buildWithin_run_sequence rfl flattened
          (predicate.buildEach_run_right declared linear intermediate size
            _ middle)
      · intro absurdity
        rw [linear] at absurdity
        cases absurdity
  | left =>
      have fresh := named.freshName_not_mem middle
      refine ⟨middle, named.freshName middle, _,
        named.reserve (named.freshName middle), ?_,
        joined, stillPrepared.reserve _, intermediate,
        List.mem_cons_of_mem _ used, ?_⟩
      · exact AnalysisTree.buildWithin_run_sequence rfl flattened
          (predicate.buildEach_run_left declared linear intermediate size _)
      · intro _
        refine ⟨stillPrepared.intermediate fresh, ?_, List.mem_cons_self⟩
        intro equal
        rw [equal] at fresh
        exact fresh used

/-- The tree of the whole body. -/
def tree (middle other : Name) (joins : List Name) : AnalysisTree :=
  if predicate.baseFirst then
    .branch baseTree (.sequence (predicate.stepTrees middle other) joins)
  else .branch (.sequence (predicate.stepTrees middle other) joins) baseTree

theorem build_run_body (declared : predicate.DeclaredIn program)
    (prepared : Prepared program supply) :
    ∃ middle other joins later,
      (AnalysisTree.build program (Inversion.base program) ["path"] goals
        predicate.body).run supply =
        (predicate.tree middle other joins, later) ∧
      middle ∈ joins ∧ predicate.Analysed program middle other later := by
  obtain ⟨size, enough⟩ : ∃ size, predicate.body.size = size + 3 := by
    refine ⟨predicate.body.size - 3, ?_⟩
    rw [body]
    split
    · simp [Expr.size, baseArm, membership, Expr.sizeList]
      omega
    · simp [Expr.size, baseArm, membership, Expr.sizeList]
  obtain ⟨middle, other, joins, later, built, joined, analysed⟩ :=
    predicate.build_run_stepArm declared prepared size
  refine ⟨middle, other, joins, later, ?_, joined, analysed⟩
  rw [AnalysisTree.build, enough, AnalysisTree.buildWithin, tree, body]
  cases predicate.baseFirst with
  | true =>
      change StateT.run (AnalysisTree.buildWithin _ _ _ (size + 2) goals
        baseArm >>= _) supply = _
      rw [Naming.run_bind, predicate.build_run_baseArm declared]
      change StateT.run (AnalysisTree.buildWithin _ _ _ (size + 2) goals
        predicate.stepArm >>= _) supply = _
      rw [Naming.run_bind, built]
      rfl
  | false =>
      change StateT.run (AnalysisTree.buildWithin _ _ _ (size + 2) goals
        predicate.stepArm >>= _) supply = _
      rw [Naming.run_bind, built]
      change StateT.run (AnalysisTree.buildWithin _ _ _ (size + 2) goals
        baseArm >>= _) later = _
      rw [Naming.run_bind, predicate.build_run_baseArm declared]
      rfl

/-- The recursion that the tree describes. -/
def recursion (middle other : Name) (joins : List Name) : Recursion :=
  ⟨["x", "y"], ⟨baseGenerator, []⟩,
    [⟨predicate.stepClauses middle other, joins⟩]⟩

theorem recursiveCalls_stepTrees (middle other : Name) (joins : List Name) :
    (AnalysisTree.sequence (predicate.stepTrees middle other)
      joins).recursiveCalls = 1 := by
  cases linear : predicate.linearity <;> rw [stepTrees, linear] <;> rfl

theorem step_ofTree {other : Name} {joins : List Name} (joined : middle ∈ joins)
    (notStart : middle ≠ "x") (notEnd : middle ≠ "y")
    (copy : predicate.linearity = .left → other ≠ "y") :
    StepCase.ofTree ["x", "y"]
      (.sequence (predicate.stepTrees middle other) joins) =
      .ok ⟨predicate.stepClauses middle other, joins⟩ := by
  have clauses : (predicate.stepTrees middle other).mapM StepClause.ofTree =
      .ok (predicate.stepClauses middle other) := by
    cases linear : predicate.linearity <;>
      rw [stepTrees, stepClauses, linear] <;> rfl
  have startVars := Pattern.vars_pair notStart.symm
  rw [StepCase.ofTree, clauses]
  cases linear : predicate.linearity with
  | right =>
      have endVars := Pattern.vars_pair notEnd
      simp [stepClauses, linear, stepGenerator, StepClause.isScan,
        StepClause.recursiveVars, StepClause.produced, startVars, endVars,
        joined, bind, Except.bind, pure, Except.pure]
  | left =>
      have endVars := Pattern.vars_pair (copy linear)
      simp [stepClauses, linear, stepGenerator, StepClause.isScan,
        StepClause.recursiveVars, StepClause.produced, startVars, endVars,
        joined, bind, Except.bind, pure, Except.pure]

theorem recursion_ofTree {settings : Settings} {other : Name}
    {joins : List Name} (allowed : 1 ≤ settings.maxStepCases)
    (joined : middle ∈ joins) (notStart : middle ≠ "x") (notEnd : middle ≠ "y")
    (copy : predicate.linearity = .left → other ≠ "y") :
    Recursion.ofTree settings ["x", "y"] (predicate.tree middle other joins) =
      .ok (predicate.recursion middle other joins) := by
  have step := predicate.step_ofTree joined notStart notEnd copy
  have calls := predicate.recursiveCalls_stepTrees middle other joins
  have limit : ¬ settings.maxStepCases < 1 := by omega
  have base : BaseCase.ofTree ["x", "y"] baseTree =
    .ok ⟨baseGenerator, []⟩ := rfl
  have plain : baseTree.recursiveCalls = 0 := rfl
  have arms :
    (AnalysisTree.sequence (predicate.stepTrees middle other) joins).arms =
    [.sequence (predicate.stepTrees middle other) joins] := rfl
  have baseArms : baseTree.arms = [baseTree] := rfl
  rw [tree]
  generalize AnalysisTree.sequence (predicate.stepTrees middle other) joins =
    arm at *
  generalize baseTree = baseArm at *
  split <;>
    simp [Recursion.ofTree, AnalysisTree.arms, arms, baseArms, plain, calls,
      Recursion.splitArms, AnalysisTree.isRecursive, step, base, limit,
      recursion, bind, Except.bind, pure, Except.pure]


end PathPredicate

end RecursiveQuery
