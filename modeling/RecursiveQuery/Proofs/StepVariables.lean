import RecursiveQuery.Proofs.NewVariables
import RecursiveQuery.Proofs.PlanStages
import RecursiveQuery.Proofs.RecursionShape
import RecursiveQuery.Proofs.TreeRuns

/-!
# Variables of steps

The clauses of a recursive arm are analysed in the scope that the clauses before
them leave.  So the scan of a clause binds variables that no clause before it
produces, while the argument of a recursive call may repeat them.
-/

namespace RecursiveQuery

namespace AnalysisTree

mutual

/-- The generators of a tree bind new variables in the scope of their clause,
and all names are among some names. -/
def IsNew (names : List Name) (scope : Scope) : AnalysisTree → Prop
  | terminal ⟨_, .recursive _ argument⟩ => argument.freeVars ⊆ names
  | terminal ⟨term, .inverted inversion⟩ =>
      term.freeVars ⊆ names ∧ inversion.IsNew scope names
  | branch left right => left.IsNew names scope ∧ right.IsNew names scope
  | sequence children joins => AreNew names (scope.withJoins joins) children

def AreNew (names : List Name) (scope : Scope) : List AnalysisTree → Prop
  | [] => True
  | child :: children => child.IsNew names scope ∧
      AreNew names (child.extend scope) children

end

variable {names more : List Name}

mutual

theorem IsNew.mono {scope : Scope} {tree : AnalysisTree}
    (isNew : tree.IsNew names scope) (subset : names ⊆ more) :
    tree.IsNew more scope := by
  match tree with
  | terminal ⟨_, .recursive _ _⟩ =>
      rw [IsNew] at isNew ⊢
      exact List.Subset.trans isNew subset
  | terminal ⟨_, .inverted _⟩ =>
      rw [IsNew] at isNew ⊢
      exact ⟨List.Subset.trans isNew.1 subset, isNew.2.mono subset⟩
  | branch left right =>
      rw [IsNew] at isNew ⊢
      exact ⟨IsNew.mono isNew.1 subset, IsNew.mono isNew.2 subset⟩
  | sequence children joins =>
      rw [IsNew] at isNew ⊢
      exact AreNew.mono isNew subset
termination_by structural tree

theorem AreNew.mono {scope : Scope} {children : List AnalysisTree}
    (areNew : AreNew names scope children) (subset : names ⊆ more) :
    AreNew more scope children := by
  match children with
  | [] => trivial
  | child :: children =>
      rw [AreNew] at areNew ⊢
      exact ⟨IsNew.mono areNew.1 subset, AreNew.mono areNew.2 subset⟩
termination_by structural children

end

mutual

/-- Producing the variables of a tree binds only names of the tree. -/
theorem bindsAmong_extend {scope other : Scope} {tree : AnalysisTree}
    (isNew : tree.IsNew names other) (among : scope.BindsAmong names) :
    (tree.extend scope).BindsAmong names := by
  match tree with
  | terminal ⟨_, .recursive _ argument⟩ =>
      rw [IsNew] at isNew
      rw [extend]
      split
      · next pattern taken =>
          apply among.produce
          rw [← Expr.freeVars_of_toPattern? taken]
          exact isNew
      · exact among
  | terminal ⟨_, .inverted (.generated _ _)⟩ =>
      rw [IsNew] at isNew
      exact among.produce isNew.2.1.pattern
  | terminal ⟨_, .inverted .filter⟩ => exact among
  | terminal ⟨_, .inverted (.failed _)⟩ => exact among
  | branch _ _ => exact among
  | sequence children joins =>
      rw [IsNew] at isNew
      exact bindsAmong_extendList isNew among
termination_by structural tree

theorem bindsAmong_extendList {scope other : Scope}
    {children : List AnalysisTree} (areNew : AreNew names other children)
    (among : scope.BindsAmong names) :
    (extendList scope children).BindsAmong names := by
  match children with
  | [] => exact among
  | child :: children =>
      rw [AreNew] at areNew
      rw [extendList]
      exact bindsAmong_extendList areNew.2 (bindsAmong_extend areNew.1 among)
termination_by structural children

end

theorem buildWithin_isNew {program : Program} {invert : Inverter}
    {active : List Name} (inverts : Inversion.KeepsNew program (invert active))
    (size : Nat) {scope : Scope} {expr : Expr} {supply : NameSupply}
    (declared : program.names ⊆ supply.used)
    (reserved : expr.allNames ⊆ supply.used)
    (among : scope.BindsAmong supply.used) :
    (buildWithin program invert active size scope expr).Ensures supply
      fun tree later => tree.IsNew later.used scope := by
  refine @buildWithin_ensures program invert active
    (fun scope expr supply => program.names ⊆ supply.used ∧
      expr.allNames ⊆ supply.used ∧ scope.BindsAmong supply.used)
    (fun scope tree supply => tree.IsNew supply.used scope)
    (fun scope children supply => AreNew supply.used scope children) ?_
    (fun _ _ _ _ grown isNew => isNew.mono grown) ?_ (fun _ _ => trivial)
    (fun _ _ _ _ child children => ⟨child, children⟩) ?_ ?_ ?_
    (fun _ _ _ _ left right => ⟨left, right⟩) (fun _ _ _ _ children => children)
    size scope expr
    supply ⟨declared, reserved, among⟩
  · intro scope expr supply later grown given
    obtain ⟨declared, reserved, among⟩ := given
    exact ⟨List.Subset.trans declared grown, List.Subset.trans reserved grown,
      among.mono grown⟩
  · intro scope expr supply tree given isNew
    exact ⟨given.1, given.2.1, bindsAmong_extend isNew given.2.2⟩
  · intro scope expr supply given
    obtain ⟨declared, reserved, among⟩ := given
    apply @leaf_ensures invert active
      (fun scope tree supply => tree.IsNew supply.used scope)
    · intro function argument called
      rw [Expr.eq_of_namedCall? called] at reserved
      exact List.Subset.trans (Expr.freeVars_subset_allNames argument)
        (List.append_subset.mp reserved).2
    · apply (inverts scope expr supply declared reserved among).mono
      intro inversion later grown isNew
      exact ⟨List.Subset.trans (Expr.freeVars_subset_allNames expr)
        (List.Subset.trans reserved grown), isNew⟩
  · intro scope expr supply first second rest given arms
    obtain ⟨declared, reserved, among⟩ := given
    obtain ⟨firstReserved, restReserved⟩ :=
      Expr.disjuncts_reserved reserved arms
    exact ⟨⟨declared, firstReserved, among⟩, declared, restReserved, among⟩
  · intro scope expr supply given
    obtain ⟨declared, reserved, among⟩ := given
    apply (Scope.flatten_reserved reserved).mono
    intro clauses later grown found clause member
    have stillDeclared := List.Subset.trans declared grown
    have stillAmong := among.mono grown
    exact ⟨⟨stillDeclared, found clause member, stillAmong⟩,
      fun _ => ⟨stillDeclared, found clause member, stillAmong⟩⟩

end AnalysisTree

namespace StepClause

/-- All names that a clause mentions are among some names. -/
def IsAmong (names : List Name) : StepClause → Prop
  | scan generator residual =>
      generator.pattern.occurrences ⊆ names ∧
      generator.source.freeVars ⊆ names ∧
        ∀ condition ∈ residual, condition.freeVars ⊆ names
  | filter condition => condition.freeVars ⊆ names
  | recursive _ argument => argument.occurrences ⊆ names

theorem IsAmong.produced {names : List Name} {clauses : List StepClause}
    (among : ∀ clause ∈ clauses, clause.IsAmong names) :
    clauses.flatMap StepClause.produced ⊆ names := by
  intro name member
  obtain ⟨clause, isClause, isProduced⟩ := List.mem_flatMap.mp member
  have clauseAmong := among clause isClause
  cases clause with
  | scan generator residual =>
      exact clauseAmong.1 (Pattern.mem_vars.mp isProduced)
  | filter condition => cases isProduced
  | recursive function argument =>
      exact clauseAmong (Pattern.mem_vars.mp isProduced)

/-- A scan binds variables that are not among those before, each once. -/
def IsNew (before : List Name) : StepClause → Prop
  | scan generator _ =>
      generator.pattern.occurrences.Nodup ∧
        ∀ name ∈ generator.pattern.occurrences, name ∉ before
  | filter _ => True
  | recursive _ _ => True

/-- Each scan binds variables that no clause before it produces. -/
def areNew (before : List Name) : List StepClause → Prop
  | [] => True
  | clause :: clauses => clause.IsNew before ∧
      areNew (before ++ clause.produced) clauses

end StepClause

theorem Scope.isBound_produce_of_mem {scope : Scope} {generator : Generator}
    {before : List Name} (bound : ∀ name ∈ before, scope.isBound name = true)
    {name : Name} (either : name ∈ before ++ generator.pattern.vars) :
    (scope.produce generator).isBound name = true := by
  rw [isBound_produce, Bool.or_eq_true, List.contains_iff_mem]
  exact (List.mem_append.mp either).imp_left (bound name)

section Reading

variable {names goals : List Name} {scope : Scope} {tree : AnalysisTree}

theorem StepClause.ofTree_isNew {clause : StepClause} {before : List Name}
    (isNew : tree.IsNew names scope)
    (bound : ∀ name ∈ before, scope.isBound name = true)
    (found : ofTree tree = .ok clause) :
    clause.IsAmong names ∧ clause.IsNew before ∧
      ∀ name ∈ before ++ clause.produced, (tree.extend scope).isBound name =
        true := by
  rcases ofTree_cases found with
    ⟨term, function, argument, pattern, rfl, taken, rfl⟩ |
      ⟨term, generator, residual, rfl, finite, rfl⟩ | ⟨term, rfl, rfl⟩
  · have argumentAmong : argument.freeVars ⊆ names := isNew
    rw [Expr.freeVars_of_toPattern? taken] at argumentAmong
    refine ⟨argumentAmong, trivial, ?_⟩
    intro name either
    rw [AnalysisTree.extend, taken]
    exact Scope.isBound_produce_of_mem bound either
  · obtain ⟨-, generatorNew, residualAmong⟩ := isNew
    refine ⟨⟨generatorNew.pattern, generatorNew.source, residualAmong⟩,
      ⟨generatorNew.distinct, ?_⟩, ?_⟩
    · intro name occurs isBefore
      have isBound := bound name isBefore
      rw [generatorNew.unbound name occurs] at isBound
      cases isBound
    · intro name either
      exact Scope.isBound_produce_of_mem bound either
  · refine ⟨isNew.1, trivial, ?_⟩
    intro name either
    exact bound name ((List.append_nil before) ▸ either)

theorem StepCase.ofTree_isNew {case : StepCase} (isNew : tree.IsNew names scope)
    (found : ofTree goals tree = .ok case) :
    (∀ clause ∈ case.clauses, clause.IsAmong names) ∧
    StepClause.areNew [] case.clauses := by
  obtain ⟨children, rfl, read, -, -⟩ := ofTree_cases found
  have childrenNew :
    AnalysisTree.AreNew names (scope.withJoins case.joins) children := isNew
  have bound : ∀ name ∈ ([] : List Name),
    (scope.withJoins case.joins).isBound name = true := by
    intro name member
    cases member
  generalize scope.withJoins case.joins = inner at childrenNew bound
  clear isNew found
  generalize ([] : List Name) = before at bound ⊢
  generalize case.clauses = clauses at read ⊢
  induction read generalizing inner before with
  | nil =>
      refine ⟨?_, trivial⟩
      intro clause member
      cases member
  | cons first _ induction =>
      obtain ⟨childNew, restNew⟩ := childrenNew
      obtain ⟨clauseAmong, clauseNew, boundBehind⟩ :=
        StepClause.ofTree_isNew childNew bound first
      obtain ⟨restAmong, restNew⟩ := induction _ restNew _ boundBehind
      exact ⟨List.forall_mem_cons.mpr ⟨clauseAmong, restAmong⟩, clauseNew,
        restNew⟩

theorem Recursion.ofTree_isNew {settings : Settings} {recursion : Recursion}
    (isNew : tree.IsNew names scope)
    (found : ofTree settings goals tree = .ok recursion) :
    ∀ case ∈ recursion.steps, (∀ clause ∈ case.clauses, clause.IsAmong names) ∧
      StepClause.areNew [] case.clauses := by
  obtain ⟨-, -, foundSteps⟩ := ofTree_cases found
  intro case member
  obtain ⟨arm, armMember, foundStep⟩ := foundSteps case member
  have armNew :=
    @AnalysisTree.forall_mem_arms (fun tree => tree.IsNew names scope)
    (fun _ _ given => given) tree isNew arm armMember
  exact StepCase.ofTree_isNew armNew foundStep

end Reading

end RecursiveQuery
