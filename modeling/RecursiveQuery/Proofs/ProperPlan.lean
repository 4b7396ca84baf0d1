import RecursiveQuery.Proofs.CallShapes
import RecursiveQuery.Proofs.PlanStages
import RecursiveQuery.Proofs.ProperInversion
import RecursiveQuery.Proofs.RecursionShape
import RecursiveQuery.Proofs.TreeRuns

/-!
# Proper plans

The analysis tree of a proper body is proper, and so are the recursion read off
it, its fixpoint and the plan of a query.  The goals of a recursion are at least
one identifier each, and every step scans something.
-/

namespace RecursiveQuery

theorem Expr.proper_argument {call argument : Expr} {function : Name}
    (proper : call.Proper)
    (called : call.namedCall? = some (function, argument)) :
    argument.Proper := by
  rw [eq_of_namedCall? called] at proper
  exact (proper_apply.mp proper).2

namespace AnalysisTree

variable {expr : Expr}

mutual

/-- All terms, arguments and inversions of a tree are proper. -/
def Proper : AnalysisTree → Prop
  | terminal ⟨term, .recursive _ argument⟩ => term.Proper ∧ argument.Proper
  | terminal ⟨term, .inverted inversion⟩ => term.Proper ∧ inversion.Proper
  | branch left right => left.Proper ∧ right.Proper
  | sequence children _ => AreProper children

def AreProper : List AnalysisTree → Prop
  | [] => True
  | child :: children => child.Proper ∧ AreProper children

end

mutual

theorem proper_extend {tree : AnalysisTree} {scope : Scope}
    (proper : tree.Proper) (scopeProper : scope.Proper) :
    (tree.extend scope).Proper := by
  match tree with
  | terminal ⟨_, .inverted (.generated _ _)⟩ =>
      exact scopeProper.produce proper.2.1.1
  | terminal ⟨_, .inverted .filter⟩ => exact scopeProper
  | terminal ⟨_, .inverted (.failed _)⟩ => exact scopeProper
  | terminal ⟨_, .recursive function argument⟩ =>
      rw [extend]
      split
      · next pattern taken =>
          exact scopeProper.produce
            (Expr.isWellFormed_of_toPattern? proper.2 taken)
      · exact scopeProper
  | branch _ _ => exact scopeProper
  | sequence children _ => exact proper_extendList proper scopeProper

theorem proper_extendList {children : List AnalysisTree} {scope : Scope}
    (proper : AreProper children) (scopeProper : scope.Proper) :
    (extendList scope children).Proper := by
  match children with
  | [] => exact scopeProper
  | child :: children =>
      rw [extendList]
      exact proper_extendList proper.2 (proper_extend proper.1 scopeProper)

end

variable {program : Program} {invert : Inverter} {active : List Name}
  {scope : Scope}

theorem leaf_proper (inverts : Inversion.KeepsProper (invert active))
    (scopeProper : scope.Proper) (proper : expr.Proper) (supply : NameSupply) :
    (leaf invert active scope expr).Ensures supply fun tree _ =>
    tree.Proper := by
  refine @leaf_ensures invert active (fun _ tree _ => tree.Proper) scope expr
    supply ?_ ?_
  · exact fun function argument called =>
      ⟨proper, Expr.proper_argument proper called⟩
  · exact (inverts scope expr supply scopeProper proper).mono fun _ _ _ found =>
      ⟨proper, found⟩

theorem buildWithin_proper (inverts : Inversion.KeepsProper (invert active))
    (size : Nat) (scopeProper : scope.Proper) (proper : expr.Proper)
    (supply : NameSupply) :
    (buildWithin program invert active size scope expr).Ensures supply
      fun tree _ => tree.Proper := by
  refine @buildWithin_ensures program invert active
    (fun scope expr _ => scope.Proper ∧ expr.Proper)
    (fun _ tree _ => tree.Proper)
    (fun _ children _ => AreProper children) (fun _ _ _ _ _ given => given)
    (fun _ _ _ _ _ treeProper => treeProper) ?_ (fun _ _ => trivial)
    (fun _ _ _ _ child children => ⟨child, children⟩) ?_ ?_ ?_
    (fun _ _ _ _ left right => ⟨left, right⟩) (fun _ _ _ _ children => children)
    size scope expr
    supply ⟨scopeProper, proper⟩
  · intro scope expr supply tree given treeProper
    exact ⟨proper_extend treeProper given.1, given.2⟩
  · intro scope expr supply given
    exact leaf_proper inverts given.1 given.2 supply
  · intro scope expr supply first second rest given arms
    obtain ⟨firstProper, restProper⟩ :=
      Expr.disjuncts_cases (fun _ _ => Expr.proper_orElse) given.2 arms
    exact ⟨⟨given.1, firstProper⟩, given.1, restProper⟩
  · intro scope expr supply given
    refine (Scope.flatten_proper given.2 supply).mono ?_
    intro clauses later _ found clause member
    exact ⟨⟨given.1, found clause member⟩,
      fun _ => ⟨given.1, found clause member⟩⟩

theorem proper_of_mem_arms {tree arm : AnalysisTree} (proper : tree.Proper)
    (member : arm ∈ tree.arms) : arm.Proper :=
  forall_mem_arms (fun _ _ given => given) proper arm member

end AnalysisTree

/-! ## Recursions -/

def StepClause.Proper : StepClause → Prop
  | scan generator residual => generator.Proper ∧ ∀ term ∈ residual, term.Proper
  | filter condition => condition.Proper
  | recursive _ argument => argument.isWellFormed = true

/-- Proper clauses of which one scans. -/
structure StepCase.Proper (case : StepCase) : Prop where
  clauses : ∀ clause ∈ case.clauses, clause.Proper
  scans : case.clauses.any StepClause.isScan = true

structure BaseCase.Proper (base : BaseCase) : Prop where
  generator : base.generator.Proper
  residual : ∀ term ∈ base.residual, term.Proper

/-- A proper recursion has at least one goal, and all of them are
identifiers. -/
structure Recursion.Proper (recursion : Recursion) : Prop where
  nonempty : recursion.goals ≠ []
  goals : ∀ goal ∈ recursion.goals, goal.isIdentifier = true
  base : recursion.base.Proper
  steps : ∀ case ∈ recursion.steps, case.Proper

theorem BaseCase.gather_proper {children : List AnalysisTree}
    {gathered : List Generator × List Expr}
    (proper : AnalysisTree.AreProper children)
    (found : gather children = .ok gathered) :
    (∀ part ∈ gathered.1, part.Proper) ∧ ∀ term ∈ gathered.2, term.Proper := by
  induction children generalizing gathered with
  | nil =>
      cases found
      simp
  | cons child children induction =>
      obtain ⟨childProper, childrenProper⟩ := proper
      obtain ⟨rest, foundRest,
        ⟨term, generator, residual, rfl, rfl⟩ | ⟨term, rfl, rfl⟩⟩ :=
        gather_cons_cases found
      · obtain ⟨parts, terms⟩ := induction childrenProper foundRest
        exact ⟨List.forall_mem_cons.mpr ⟨childProper.2.1, parts⟩,
          List.forall_mem_append.mpr ⟨childProper.2.2, terms⟩⟩
      · obtain ⟨parts, terms⟩ := induction childrenProper foundRest
        exact ⟨parts, List.forall_mem_cons.mpr ⟨childProper.1, terms⟩⟩

section Reading

variable {goals : List Name} {tree : AnalysisTree} (nonempty : goals ≠ [])
  (identifiers : ∀ goal ∈ goals, goal.isIdentifier = true)

include nonempty identifiers in
theorem BaseCase.ofTree_proper {base : BaseCase} (proper : tree.Proper)
    (found : ofTree goals tree = .ok base) : base.Proper := by
  rcases candidate_cases (ofTree_eq_ok_iff.mp found).1 with
    ⟨term, rfl⟩ |
    ⟨children, joins, parts, residual, rfl, gathered, partsNonempty, -, rfl⟩
  · exact ⟨proper.2.1, proper.2.2⟩
  · obtain ⟨partsProper, residualProper⟩ := gather_proper proper gathered
    exact ⟨Generator.proper_join partsNonempty nonempty partsProper
      residualProper identifiers, by simp⟩

theorem StepClause.ofTree_proper {clause : StepClause} (proper : tree.Proper)
    (found : ofTree tree = .ok clause) : clause.Proper := by
  rcases ofTree_cases found with
    ⟨term, function, argument, pattern, rfl, taken, rfl⟩ |
    ⟨term, generator, residual, rfl, -, rfl⟩ | ⟨term, rfl, rfl⟩
  · exact Expr.isWellFormed_of_toPattern? proper.2 taken
  · exact proper.2
  · exact proper.1

theorem StepCase.ofTree_proper {case : StepCase} (proper : tree.Proper)
    (found : ofTree goals tree = .ok case) : case.Proper := by
  obtain ⟨children, rfl, read, scans, -⟩ := ofTree_cases found
  refine ⟨?_, scans⟩
  replace proper : AnalysisTree.AreProper children := proper
  clear found
  generalize case.clauses = clauses at read
  induction read with
  | nil => simp
  | cons first _ induction =>
      exact List.forall_mem_cons.mpr
        ⟨StepClause.ofTree_proper proper.1 first, induction proper.2⟩

include nonempty identifiers in
theorem Recursion.ofTree_proper {settings : Settings} {recursion : Recursion}
    (proper : tree.Proper)
    (found : ofTree settings goals tree = .ok recursion) :
    recursion.Proper := by
  obtain ⟨rfl, ⟨arm, armMember, foundBase⟩, foundSteps⟩ := ofTree_cases found
  refine ⟨nonempty, identifiers, BaseCase.ofTree_proper nonempty identifiers
    (AnalysisTree.proper_of_mem_arms proper armMember) foundBase, ?_⟩
  intro case member
  obtain ⟨arm, armMember, foundStep⟩ := foundSteps case member
  exact StepCase.ofTree_proper
    (AnalysisTree.proper_of_mem_arms proper armMember) foundStep

end Reading

/-! ## Fixpoints -/

theorem Pattern.renameClashes_proper {pattern : Pattern}
    (formed : pattern.isWellFormed = true) (inScope : List Name)
    (supply : NameSupply) :
    (pattern.renameClashes inScope).Ensures supply fun result _ =>
      result.1.isWellFormed = true ∧ ProperRenames result.2.1 ∧
        ∀ equation ∈ result.2.2, equation.Proper := by
  have identifiers := isIdentifier_of_mem_occurrences formed
  have clashing : ∀ name ∈ pattern.vars.filter inScope.contains,
    name.isIdentifier = true :=
    fun name member =>
      identifiers name (mem_vars.mp (List.mem_filter.mp member).1)
  refine .bind ((Naming.refresh_proper clashing supply).and
    (Naming.refresh_spec _ supply)) ?_
  rintro renames later _ ⟨proper, keys, -⟩
  refine .pure ⟨isWellFormed_rename formed fun name member =>
    proper.renamed (identifiers name member), proper, ?_⟩
  intro equation member
  obtain ⟨rename, inRenames, rfl⟩ := List.mem_map.mp member
  have old : rename.1 ∈ renames.map Prod.fst := List.mem_map_of_mem inRenames
  exact Expr.proper_equals (clashing rename.1 (keys ▸ old))
    (proper rename inRenames)

namespace StepCase

variable {increment : Name}

theorem scansOf_proper {source : Expr → Expr}
    (incrementIdentifier : increment.isIdentifier = true)
    (sourceProper : ∀ expr : Expr, expr.Proper → (source expr).Proper)
    {clauses : List StepClause} (proper : ∀ clause ∈ clauses, clause.Proper)
    (inScope : List Name) (supply : NameSupply) :
    (scansOf increment source clauses inScope).Ensures supply fun result _ =>
      (∀ scan ∈ result.1, scan.Proper) ∧
      (∀ condition ∈ result.2, condition.Proper) ∧
        (clauses.any StepClause.isScan = true → result.1 ≠ []) := by
  induction clauses generalizing inScope supply with
  | nil => exact .pure (by simp)
  | cons clause clauses induction =>
      rw [List.forall_mem_cons] at proper
      obtain ⟨clauseProper, clausesProper⟩ := proper
      cases clause with
      | filter condition =>
          refine .bind (induction clausesProper inScope supply) ?_
          rintro ⟨scans, conditions⟩ later _
            ⟨scansProper, conditionsProper, nonempty⟩
          refine .pure ⟨scansProper,
            List.forall_mem_cons.mpr ⟨clauseProper, conditionsProper⟩, ?_⟩
          simpa [StepClause.isScan] using nonempty
      | scan generator residual =>
          refine .bind
            (Pattern.renameClashes_proper clauseProper.1.1 inScope supply) ?_
          rintro ⟨pattern, renames, equations⟩ later _
            ⟨formed, identifiers, equationsProper⟩
          refine .bind
            (Scope.renameClauses_proper identifiers clauseProper.2 later) ?_
          intro residual second _ residualProper
          refine .bind (induction clausesProper _ second) ?_
          rintro ⟨scans, conditions⟩ last _ ⟨scansProper, conditionsProper, -⟩
          refine .pure
            ⟨List.forall_mem_cons.mpr ⟨⟨formed, ?_⟩, scansProper⟩, ?_, by simp⟩
          · simpa using sourceProper _ clauseProper.1.2
          · simp only [List.forall_mem_append]
            exact ⟨⟨equationsProper, residualProper⟩, conditionsProper⟩
      | recursive function argument =>
          refine .bind
            (Pattern.renameClashes_proper clauseProper inScope supply) ?_
          rintro ⟨pattern, renames, equations⟩ later _
            ⟨formed, -, equationsProper⟩
          refine .bind (induction clausesProper _ later) ?_
          rintro ⟨scans, conditions⟩ last _ ⟨scansProper, conditionsProper, -⟩
          refine .pure
            ⟨List.forall_mem_cons.mpr ⟨⟨formed, ?_⟩, scansProper⟩, ?_, by simp⟩
          · simpa using incrementIdentifier
          · exact List.forall_mem_append.mpr ⟨equationsProper, conditionsProper⟩

theorem body_proper {case : StepCase} {goal : Expr} {found : Name}
    (proper : case.Proper) (goalProper : goal.Proper)
    (foundIdentifier : found.isIdentifier = true)
    (incrementIdentifier : increment.isIdentifier = true)
    (accumulated : Option Expr) (supply : NameSupply) :
    (case.body goal found increment accumulated).Ensures supply fun body _ =>
    body.Proper := by
  refine .bind
    (scansOf_proper incrementIdentifier ?_ proper.clauses [] supply) ?_
  · intro expr exprProper
    split
    · exact Expr.proper_var.mpr foundIdentifier
    · exact exprProper
  · rintro ⟨scans, conditions⟩ later _ ⟨scansProper, conditionsProper, nonempty⟩
    exact .pure
      (Expr.proper_collect.mpr (Query.proper_filtered (nonempty proper.scans)
      scansProper conditionsProper goalProper))

end StepCase

namespace Recursion

variable {recursion : Recursion} (proper : recursion.Proper)

include proper

theorem proper_baseRelation : recursion.baseRelation.Proper := by
  rw [baseRelation]
  split
  · refine Expr.proper_collect.mpr
      (Query.proper_filtered (by simp) ?_ proper.base.residual
      (Expr.proper_row proper.goals))
    simpa using proper.base.generator.scan
  · exact proper.base.generator.2

theorem bodies_proper {found increment : Name} (settings : Settings)
    (foundIdentifier : found.isIdentifier = true)
    (incrementIdentifier : increment.isIdentifier = true)
    {cases : List StepCase} (casesProper : ∀ case ∈ cases, case.Proper)
    (supply : NameSupply) :
    (recursion.bodies settings found increment cases).Ensures supply
      fun bodies _ => ∀ body ∈ bodies, body.Proper := by
  induction cases generalizing supply with
  | nil => exact .pure (by simp)
  | cons case cases induction =>
      rw [List.forall_mem_cons] at casesProper
      refine .bind
        (StepCase.body_proper casesProper.1 (Expr.proper_row proper.goals)
        foundIdentifier incrementIdentifier _ supply) ?_
      intro body later _ bodyProper
      refine .bind (induction casesProper.2 later) ?_
      intro bodies last _ bodiesProper
      exact .pure (List.forall_mem_cons.mpr ⟨bodyProper, bodiesProper⟩)

omit proper in
theorem proper_concatenated {bodies : List Expr}
    (bodiesProper : ∀ body ∈ bodies, body.Proper) :
    (concatenated bodies).Proper :=
  concatenated_of_forall (by simp)
    (fun _ _ left right => Expr.proper_binary.mpr ⟨left, right⟩) bodiesProper

theorem plan_proper (settings : Settings) (supply : NameSupply) :
    (recursion.plan settings).Ensures supply fun fixpoint _ =>
    fixpoint.source.Proper := by
  refine .bind (supply.acquire_proper "old" (by decide)) ?_
  intro found second _ foundIdentifier
  refine .bind (second.acquire_proper "new" (by decide)) ?_
  intro increment third _ incrementIdentifier
  refine .bind (bodies_proper proper settings foundIdentifier
    incrementIdentifier proper.steps third) ?_
  intro bodies last _ bodiesProper
  refine .pure ?_
  have qualified : (Builtin.iterate
    recursion.base.generator.kind).name.isQualified = true := by
    cases recursion.base.generator.kind <;> decide
  refine Expr.proper_apply.mpr
    ⟨Expr.proper_apply.mpr ⟨qualified, proper_baseRelation proper⟩,
    Expr.proper_lambda.mpr ⟨?_, proper_concatenated bodiesProper⟩⟩
  simp [Pattern.isWellFormed, Pattern.areWellFormed, foundIdentifier,
    incrementIdentifier]

end Recursion

/-! ## Queries -/

/-- A proper shape names at least one goal. -/
structure CallShape.Proper (shape : CallShape) : Prop where
  nonempty : shape.goals ≠ []
  goals : ∀ goal ∈ shape.goals, goal.isIdentifier = true
  replacements : shape.replacements.Proper
  pattern : shape.pattern.isWellFormed = true
  residual : ∀ term ∈ shape.residual, term.Proper

theorem Name.Drawn.isIdentifier {reserved : List Name} {base name : Name}
    (drawn : Name.Drawn reserved base name)
    (identifier : base.isIdentifier = true) : name.isIdentifier = true := by
  obtain ⟨supply, -, rfl⟩ := drawn
  exact supply.isIdentifier_freshName identifier

namespace CallShape

variable {wanted reserved : List Name}
variable {pairs : List (Pattern × Expr)}

theorem NamesRows.proper {clash : Name → Bool} {formals : List Pattern}
    {goals : List Name} {replacements : Replacements}
    (named : NamesRows clash reserved formals goals replacements)
    (formed : Pattern.areWellFormed formals = true) :
    goals.length = formals.length ∧ (∀ goal ∈ goals, goal.isIdentifier = true) ∧
      replacements.Proper := by
  induction named with
  | nil => simp [Replacements.Proper]
  | kept _ _ induction =>
      simp only [Pattern.areWellFormed, Bool.and_eq_true] at formed
      obtain ⟨length, identifiers, proper⟩ := induction formed.2
      exact ⟨congrArg (· + 1) length,
        List.forall_mem_cons.mpr ⟨formed.1, identifiers⟩, proper⟩
  | drawn drawn _ induction =>
      simp only [Pattern.areWellFormed, Bool.and_eq_true] at formed
      have identifier := drawn.isIdentifier formed.1
      obtain ⟨length, identifiers, proper⟩ := induction formed.2
      refine ⟨congrArg (· + 1) length,
        List.forall_mem_cons.mpr ⟨identifier, identifiers⟩, ?_⟩
      split
      · exact proper
      · exact List.forall_mem_cons.mpr ⟨Expr.proper_var.mpr identifier, proper⟩

theorem Proper.replacing {shape : CallShape} {formal component : Name}
    (proper : shape.Proper) (identifier : component.isIdentifier = true) :
    (shape.replacing formal component).Proper := by
  refine ⟨proper.nonempty, proper.goals, ?_, proper.pattern, proper.residual⟩
  rw [CallShape.replacing]
  dsimp only
  split
  · exact proper.replacements
  · exact List.forall_mem_cons.mpr
      ⟨Expr.proper_var.mpr identifier, proper.replacements⟩

theorem NamesComponents.proper {goals : List Name} {shape : CallShape}
    (named : NamesComponents wanted reserved pairs goals shape)
    (pairsProper : ∀ pair ∈ pairs, pair.1.isWellFormed = true ∧ pair.2.Proper)
    (identifiers : ∀ goal ∈ goals, goal.isIdentifier = true)
    (nonempty : goals ≠ [] ∨ pairs ≠ []) : shape.Proper := by
  induction named with
  | nil =>
      have some := nonempty.resolve_right (by simp)
      exact ⟨some, identifiers, by simp [Replacements.Proper],
        Pattern.isWellFormed_row some identifiers, by simp⟩
  | kept _ _ _ induction =>
      rw [List.forall_mem_cons] at pairsProper
      have identifier := Expr.proper_var.mp pairsProper.1.2
      have rest := induction pairsProper.2
        (List.forall_mem_append.mpr ⟨identifiers, by simpa using identifier⟩)
        (.inl (by simp))
      exact rest.replacing identifier
  | @drawn formal component item pairs goals shape drawn _ induction =>
      rw [List.forall_mem_cons] at pairsProper
      have identifier := drawn.isIdentifier pairsProper.1.1
      have rest := induction pairsProper.2
        (List.forall_mem_append.mpr ⟨identifiers, by simpa using identifier⟩)
        (.inl (by simp))
      have equation : (Expr.equals (.var component) item).Proper :=
        Expr.proper_binary.mpr ⟨Expr.proper_var.mpr identifier, pairsProper.1.2⟩
      exact { rest.replacing identifier with
        residual := List.forall_mem_cons.mpr ⟨equation, rest.residual⟩ }

theorem proper_pairs? {param : Pattern} {argument : Expr}
    (formed : param.isWellFormed = true) (proper : argument.Proper)
    (paired : pairs? param argument = some pairs) :
    pairs ≠ [] ∧ ∀ pair ∈ pairs, pair.1.isWellFormed = true ∧
      pair.2.Proper := by
  unfold pairs? at paired
  split at paired
  · next formals items =>
      split at paired
      · next length =>
          cases paired
          simp only [Pattern.isWellFormed, Bool.and_eq_true, decide_eq_true_eq,
            Pattern.areWellFormed_iff] at formed
          refine ⟨?_, ?_⟩
          · rw [← List.length_pos_iff, List.length_zip]
            omega
          · rintro ⟨formal, item⟩ member
            exact ⟨formed.2 formal (List.of_mem_zip member).1,
              (Expr.proper_tuple.mp proper).2 item (List.of_mem_zip member).2⟩
      · cases paired
  · cases paired
    exact ⟨by simp, by simpa using ⟨formed, proper⟩⟩
  · cases paired

theorem LinesUp.proper {param : Pattern} {argument : Expr} {shape : CallShape}
    (lined : LinesUp wanted reserved param argument shape)
    (formed : param.isWellFormed = true) (argumentProper : argument.Proper) :
    shape.Proper := by
  cases lined with
  | rows _ named =>
      simp only [Pattern.isWellFormed, Bool.and_eq_true,
        decide_eq_true_eq] at formed
      obtain ⟨length, identifiers, replacementsProper⟩ := named.proper formed.2
      refine ⟨?_, identifiers, replacementsProper,
        Expr.proper_var.mp argumentProper, by simp⟩
      rw [← List.length_pos_iff, length]
      omega
  | components paired named _ =>
      obtain ⟨nonempty, pairsProper⟩ :=
        proper_pairs? formed argumentProper paired
      exact named.proper pairsProper (by simp) (.inr nonempty)

end CallShape

section Stages

variable {program : Program} {settings : Settings}

theorem CallStages.proper {call : Expr} {goals : List Name}
    (stages : CallStages program settings call goals)
    (functions : program.ProperFunctions) (callProper : call.Proper)
    (source : JoinSource) :
    stages.shape.Proper ∧ (stages.fixpoint source).source.Proper := by
  have declared := (Program.decl?_eq_some stages.decl).1
  obtain ⟨formed, bodyProper⟩ := functions _ _ _ declared
  have shapeProper : stages.shape.Proper := by
    have lined :=
      (((CallShape.ofCall_linesUp _ _ _ _).of_run stages.shapes).2 _ rfl).1
    exact lined.proper formed (Expr.proper_argument callProper stages.called)
  have instantiatedProper : stages.instantiated.Proper :=
    ((Expr.substitute_proper bodyProper shapeProper.replacements _).of_run
      stages.substitutes).2
  have treeProper : stages.tree.Proper := by
    refine
      ((AnalysisTree.buildWithin_proper ?_ _ ?_ instantiatedProper _).of_run
      stages.builds).2
    · exact fun scope expr => Inversion.within_proper functions _ _ scope expr
    · intro name bound
      cases bound
  refine ⟨shapeProper,
    (Recursion.plan_proper (Recursion.ofTree_proper ?_ ?_ treeProper
    stages.reads) _ _).2⟩
  · obtain ⟨goal, member⟩ := List.exists_mem_of_ne_nil _ shapeProper.nonempty
    exact List.ne_nil_of_mem (Scope.mem_goals_initial.mpr member)
  · intro goal member
    exact shapeProper.goals goal (Scope.mem_goals_initial.mp member)

theorem QueryStages.proper {expr : Expr}
    (stages : QueryStages program settings expr)
    (functions : program.ProperFunctions) (exprProper : expr.Proper)
    (source : JoinSource) : (stages.plan source).Proper := by
  have queryProper := exprProper
  rw [stages.query, Expr.proper_collect] at queryProper
  obtain ⟨-, scansProper, stepsProper⟩ := queryProper
  rw [List.forall_mem_cons] at stepsProper
  have conjunctsProper := Expr.proper_conjuncts stepsProper.1
  have callProper :
    (stages.condition.conjuncts.getD stages.index stages.condition).Proper := by
    rw [List.getD_eq_getElem?_getD]
    cases found : stages.condition.conjuncts[stages.index]? with
    | none => exact stepsProper.1
    | some conjunct =>
        exact conjunctsProper conjunct (List.mem_of_getElem? found)
  obtain ⟨shapeProper, sourceProper⟩ :=
    stages.call.proper functions callProper source
  have conditionsProper : ∀ condition ∈ stages.conditions, condition.Proper :=
    List.forall_mem_append.mpr ⟨shapeProper.residual, fun conjunct member =>
      conjunctsProper conjunct (List.mem_of_mem_eraseIdx member)⟩
  refine Expr.proper_collect.mpr ⟨by simp, ?_, ?_⟩
  · simpa [Scan.Proper] using ⟨shapeProper.pattern, sourceProper⟩
  · simp only [QueryStages.steps, List.forall_mem_append]
    refine ⟨⟨?_, stepsProper.2⟩, ?_⟩
    · split
      · simp
      · simpa [Step.Proper, Step.expr] using
          Expr.proper_conjunction conditionsProper
    · intro step member
      obtain ⟨row, isOutput, rfl⟩ := List.mem_map.mp member
      exact Pattern.proper_of_toExpr? (scansProper _ List.mem_cons_self).1
        (stages.output_eq row (by simpa using isOutput))

end Stages

end RecursiveQuery
