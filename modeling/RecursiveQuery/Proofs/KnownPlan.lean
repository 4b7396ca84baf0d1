import RecursiveQuery.Proofs.KnownInversion
import RecursiveQuery.Proofs.RecursionShape
import RecursiveQuery.Proofs.TreeRuns

/-!
# Known names of fixpoints

Where nothing is bound at first, the base relation of a recursion mentions only
names that the program provides.  The clauses of a step may mention the
variables of clauses before them, which the scans of the step bind, so that its
fixpoint mentions only provided names, too.
-/

namespace RecursiveQuery

namespace AnalysisTree

mutual

/-- The inversions of a tree mention what is known in the scope of their
clause. -/
def Within (program : Program) (scope : Scope) : AnalysisTree → Prop
  | terminal ⟨_, .recursive _ _⟩ => True
  | terminal ⟨term, .inverted inversion⟩ =>
      inversion.Within (scope.Knows program) term
  | branch left right => left.Within program scope ∧ right.Within program scope
  | sequence children joins =>
      AreWithin program (scope.withJoins joins) children

def AreWithin (program : Program) (scope : Scope) : List AnalysisTree → Prop
  | [] => True
  | child :: children =>
      child.Within program scope ∧
      AreWithin program (child.extend scope) children

end

theorem buildWithin_known {program : Program} {invert : Inverter}
    {active : List Name}
    (inverts : Inversion.KeepsKnown program (invert active)) (size : Nat)
    {scope : Scope} {expr : Expr} {supply : NameSupply}
    (declared : program.names ⊆ supply.used)
    (reserved : expr.allNames ⊆ supply.used) :
    (buildWithin program invert active size scope expr).Ensures supply
      fun tree _ => tree.Within program scope := by
  refine @buildWithin_ensures program invert active
    (fun _ expr supply => program.names ⊆ supply.used ∧
      expr.allNames ⊆ supply.used)
    (fun scope tree _ => tree.Within program scope)
    (fun scope children _ => AreWithin program scope children) ?_
    (fun _ _ _ _ _ within => within) (fun _ _ _ _ given _ => given)
    (fun _ _ => trivial)
    (fun _ _ _ _ child children => ⟨child, children⟩) ?_ ?_ ?_
    (fun _ _ _ _ left right => ⟨left, right⟩) (fun _ _ _ _ children => children)
    size scope expr
    supply ⟨declared, reserved⟩
  · intro scope expr supply later grown given
    exact ⟨List.Subset.trans given.1 grown, List.Subset.trans given.2 grown⟩
  · intro scope expr supply given
    exact @leaf_ensures invert active
      (fun scope tree _ => tree.Within program scope) scope expr
      supply (fun _ _ _ => trivial) (inverts scope expr supply given.1 given.2)
  · intro scope expr supply first second rest given arms
    obtain ⟨firstReserved, restReserved⟩ := Expr.disjuncts_reserved given.2 arms
    exact ⟨⟨given.1, firstReserved⟩, given.1, restReserved⟩
  · intro scope expr supply given
    refine (Scope.flatten_reserved given.2).mono ?_
    intro clauses later grown found clause member
    have clauseGiven :=
      And.intro (List.Subset.trans given.1 grown) (found clause member)
    exact ⟨clauseGiven, fun _ => clauseGiven⟩

end AnalysisTree

/-! ## Recursions -/

/-- The clauses of a step mention what is known or produced by the clauses
before. -/
def StepClause.areWithin (known : Name → Prop) : List StepClause → Prop
  | [] => True
  | scan generator residual :: clauses =>
      let produced :=
        fun name => known name ∨ name ∈ generator.pattern.occurrences
      generator.source.Within known ∧
      (∀ condition ∈ residual, condition.Within produced) ∧
        areWithin produced clauses
  | filter condition :: clauses => condition.Within known ∧
      areWithin known clauses
  | recursive _ argument :: clauses =>
      areWithin (fun name => known name ∨ name ∈ argument.occurrences) clauses

/-- The source of the base relation mentions known names, and its conditions the
generated variables besides, among which are all goals. -/
structure BaseCase.Within (known : Name → Prop) (goals : List Name)
    (base : BaseCase) : Prop where
  source : base.generator.source.Within known
  residual : ∀ condition ∈ base.residual,
    condition.Within fun name => known name ∨
    name ∈ base.generator.pattern.occurrences
  goals : goals ⊆ base.generator.pattern.vars

structure Recursion.Within (known : Name → Prop) (recursion : Recursion) :
    Prop where
  base : recursion.base.Within known recursion.goals
  steps : ∀ case ∈ recursion.steps, StepClause.areWithin known case.clauses ∧
    recursion.goals ⊆ case.clauses.flatMap StepClause.produced

section Reading

variable {program : Program} {scope : Scope} {goals : List Name}
  {tree : AnalysisTree}

/-- The parts of a sequence as scans behind each other. -/
theorem BaseCase.gather_known {children : List AnalysisTree}
    {parts : List Generator} {residual : List Expr}
    (within : AnalysisTree.AreWithin program scope children)
    (found : gather children = .ok (parts, residual)) :
    ((∀ part ∈ parts, part.isFinite = true) →
      Scan.areWithin (scope.Knows program) (parts.map Generator.scan)) ∧
    ∀ condition ∈ residual, condition.Within fun name =>
      scope.Knows program name ∨
      name ∈ Scan.bound (parts.map Generator.scan) := by
  induction children generalizing scope parts residual with
  | nil =>
      cases found
      exact ⟨fun _ => trivial, nofun⟩
  | cons child children induction =>
      obtain ⟨childWithin, childrenWithin⟩ := within
      obtain ⟨⟨laterParts, laterResidual⟩, foundRest,
        ⟨term, generator, first, rfl, same⟩ |
        ⟨term, rfl, same⟩⟩ := gather_cons_cases found
      · cases same
        obtain ⟨scans, conditions⟩ := induction childrenWithin foundRest
        refine ⟨?_, List.forall_mem_append.mpr ⟨?_, ?_⟩⟩
        · intro finite
          rw [List.forall_mem_cons] at finite
          exact ⟨childWithin.1 finite.1,
            (scans finite.2).mono fun _ => Scope.knows_produce.mp⟩
        · intro condition member
          refine (childWithin.2 condition member).mono ?_
          rintro name (isKnown | occurs)
          · exact .inl isKnown
          · exact .inr (List.mem_append_left _ occurs)
        · intro condition member
          refine (conditions condition member).mono ?_
          rintro name (isKnown | later)
          · exact (Scope.knows_produce.mp isKnown).imp_right fun occurs =>
              List.mem_append_left _ occurs
          · exact .inr (List.mem_append_right _ later)
      · cases same
        obtain ⟨scans, conditions⟩ := induction childrenWithin foundRest
        exact ⟨scans, List.forall_mem_cons.mpr
          ⟨childWithin.mono fun _ => .inl, conditions⟩⟩

theorem BaseCase.ofTree_known {base : BaseCase}
    (within : tree.Within program scope)
    (found : ofTree goals tree = .ok base) :
    base.Within (scope.Knows program) goals := by
  obtain ⟨candidate, finite, covered⟩ := ofTree_eq_ok_iff.mp found
  rcases candidate_cases candidate with
    ⟨term, rfl⟩ |
    ⟨children, joins, parts, residual, rfl, gathered, -, produced, rfl⟩
  · exact ⟨within.1 finite, within.2, covered⟩
  · obtain ⟨scans, conditions⟩ := gather_known within gathered
    refine ⟨Query.within_filtered (scans (Generator.isFinite_join.mp finite))
      conditions ?_, nofun, covered⟩
    intro name member
    rw [Expr.freeVars_row] at member
    obtain ⟨part, inParts, occurs⟩ := List.mem_flatMap.mp (produced member)
    exact .inr (List.mem_flatMap.mpr
      ⟨part.scan, List.mem_map_of_mem inParts, Pattern.mem_vars.mp occurs⟩)

/-- Only what a pattern binds matters for what is known behind it. -/
theorem AnalysisTree.knows_extend_recursive {term argument : Expr}
    {function : Name} {pattern : Pattern}
    (taken : argument.toPattern? = some pattern) {name : Name} :
    ((terminal ⟨term, .recursive function argument⟩).extend scope).Knows
    program name ↔ scope.Knows program name ∨ name ∈ pattern.occurrences := by
  rw [extend, taken]
  exact Scope.knows_produce

theorem StepClause.areWithin.mono {known other : Name → Prop}
    {clauses : List StepClause} (within : areWithin known clauses)
    (weaker : ∀ name, known name → other name) : areWithin other clauses := by
  have produced (names : List Name) (name : Name)
    (isKnown : known name ∨ name ∈ names) :
      other name ∨ name ∈ names := isKnown.imp_left (weaker name)
  induction clauses generalizing known other with
  | nil => trivial
  | cons clause clauses induction =>
      cases clause with
      | scan generator residual =>
          obtain ⟨source, conditions, rest⟩ := within
          exact ⟨source.mono weaker,
            fun condition member =>
              (conditions condition member).mono (produced _),
            induction rest (produced _) fun _ _ isKnown =>
              isKnown.imp_left (produced _ _)⟩
      | filter condition =>
          exact ⟨Expr.Within.mono within.1 weaker,
            induction within.2 weaker produced⟩
      | recursive function argument =>
          exact induction within (produced _) fun _ _ isKnown =>
            isKnown.imp_left (produced _ _)

theorem StepCase.ofTree_known {case : StepCase}
    (within : tree.Within program scope)
    (found : ofTree goals tree = .ok case) :
    StepClause.areWithin (scope.Knows program) case.clauses ∧
      goals ⊆ case.clauses.flatMap StepClause.produced := by
  obtain ⟨children, rfl, read, -, covered⟩ := ofTree_cases found
  refine ⟨?_, covered⟩
  replace within : AnalysisTree.AreWithin program (scope.withJoins case.joins)
    children := within
  have same : scope.Knows program =
    (scope.withJoins case.joins).Knows program := rfl
  rw [same]
  generalize scope.withJoins case.joins = inner at within
  clear found covered same
  generalize case.clauses = clauses at read
  induction read generalizing inner with
  | nil => trivial
  | cons first _ induction =>
      obtain ⟨firstWithin, restWithin⟩ := within
      have rest := induction _ restWithin
      rcases StepClause.ofTree_cases first with
        ⟨term, function, argument, pattern, rfl, taken, rfl⟩ |
          ⟨term, generator, residual, rfl, finite, rfl⟩ | ⟨term, rfl, rfl⟩
      · exact rest.mono fun _ => (AnalysisTree.knows_extend_recursive taken).mp
      · exact ⟨firstWithin.1 finite, firstWithin.2,
          rest.mono fun _ => Scope.knows_produce.mp⟩
      · exact ⟨firstWithin, rest⟩

theorem Recursion.ofTree_known {settings : Settings} {recursion : Recursion}
    (within : tree.Within program scope)
    (found : ofTree settings goals tree = .ok recursion) :
    recursion.Within (scope.Knows program) := by
  obtain ⟨rfl, ⟨arm, armMember, foundBase⟩, foundSteps⟩ := ofTree_cases found
  have arms :=
    @AnalysisTree.forall_mem_arms (fun tree => tree.Within program scope)
    (fun _ _ given => given) tree within
  refine ⟨BaseCase.ofTree_known (arms arm armMember) foundBase, ?_⟩
  intro case member
  obtain ⟨stepArm, stepMember, foundStep⟩ := foundSteps case member
  exact StepCase.ofTree_known (arms stepArm stepMember) foundStep

end Reading

/-! ## Fixpoints -/

/-- Renamed variables were in scope, the other ones keep their names, and both
sides of the equations are in scope behind the pattern. -/
structure Pattern.RenamesClashes (pattern : Pattern) (inScope : List Name)
    (result : Pattern) (renames : List (Name × Name)) (equations : List Expr) :
    Prop where
  occurrences : result.occurrences =
    pattern.occurrences.map (Name.renamed renames)
  renamed : ∀ name, name ∈ NameMap.keys renames ↔ name ∈ pattern.occurrences ∧
    name ∈ inScope
  equations : ∀ equation ∈ equations,
    equation.Within fun name => name ∈ inScope ∨ name ∈ result.occurrences

theorem Pattern.renameClashes_spec (pattern : Pattern) (inScope : List Name)
    (supply : NameSupply) :
    (pattern.renameClashes inScope).Ensures supply fun result _ =>
      pattern.RenamesClashes inScope result.1 result.2.1 result.2.2 := by
  refine .bind (Naming.refresh_spec _ supply) ?_
  rintro renames later _ ⟨keys, -⟩
  have renamed (name : Name) :
      name ∈ NameMap.keys renames ↔ name ∈ pattern.occurrences ∧
      name ∈ inScope := by
    rw [NameMap.keys, keys, List.mem_filter, mem_vars, List.contains_iff_mem]
  refine .pure ⟨occurrences_rename _ pattern, renamed, ?_⟩
  intro equation member
  obtain ⟨⟨old, target⟩, inRenames, rfl⟩ := List.mem_map.mp member
  obtain ⟨occurs, wasInScope⟩ :=
    (renamed old).mp (List.mem_map_of_mem inRenames)
  intro name isSide
  rcases List.mem_cons.mp isSide with rfl | isTarget
  · exact .inl wasInScope
  · have distinct : (NameMap.keys renames).Nodup := by
      rw [NameMap.keys, keys]
      exact (nodup_eraseDups _).filter _
    have isNew : Name.renamed renames old = target := by
      rw [Name.renamed, NameMap.lookup_of_mem distinct inRenames]
      rfl
    rw [List.mem_singleton.mp isTarget, ← isNew, occurrences_rename]
    exact .inr (List.mem_map_of_mem occurs)

namespace Pattern.RenamesClashes

variable {pattern result : Pattern} {inScope : List Name}
  {renames : List (Name × Name)}
  {equations : List Expr}
    (clashes : pattern.RenamesClashes inScope result renames equations)
  {known : Name → Prop} (inScopeKnown : ∀ name ∈ inScope, known name)

include clashes inScopeKnown

theorem known_of_mem {name : Name} (member : name ∈ pattern.occurrences) :
    known name ∨ name ∈ result.occurrences := by
  by_cases isKey : name ∈ NameMap.keys renames
  · exact .inl (inScopeKnown name ((clashes.renamed name).mp isKey).2)
  · rw [clashes.occurrences, ← Name.renamed_of_not_mem isKey]
    exact .inr (List.mem_map_of_mem member)

omit inScopeKnown in
/-- Conditions on the variables of a pattern are renamed with them. -/
theorem renameClauses_known {clauses : List Expr}
    (within : ∀ clause ∈ clauses, clause.Within fun name => known name ∨
      name ∈ pattern.occurrences)
    (supply : NameSupply) :
    (Scope.renameClauses renames clauses).Ensures supply fun renamed _ =>
      ∀ clause ∈ renamed, clause.Within fun name => known name ∨
      name ∈ result.occurrences := by
  refine (@Scope.renameClauses_ensures (fun _ renamed _ =>
    renamed.Within fun name => known name ∨ name ∈ result.occurrences)
    (fun _ _ _ _ _ given => given) renames clauses supply ?_).mono
    fun renamed later _ pairs => forall_mem_of_forall₂ pairs
  intro clause member later _
  refine (clause.substitute_carries _ later).mono ?_
  intro renamed last _ carries name isFree
  obtain ⟨old, wasFree, reaches⟩ := carries.only name isFree
  rw [Replacements.reaches_ofRenames.mp reaches]
  by_cases occurs : old ∈ pattern.occurrences
  · rw [clashes.occurrences]
    exact .inr (List.mem_map_of_mem occurs)
  · have isKnown := (within clause member old wasFree).resolve_right occurs
    rw [Name.renamed_of_not_mem fun isKey =>
      occurs ((clashes.renamed old).mp isKey).1]
    exact .inl isKnown

end Pattern.RenamesClashes

/-- Scans that bind what the clauses of a step produce, with conditions on what
they bind. -/
structure StepClause.Scanned (known : Name → Prop) (clauses : List StepClause)
    (scans : List Scan) (conditions : List Expr) : Prop where
  sources : Scan.areWithin known scans
  tests : ∀ condition ∈ conditions,
    condition.Within fun name => known name ∨ name ∈ Scan.bound scans
  produced : ∀ name ∈ clauses.flatMap StepClause.produced, known name ∨
    name ∈ Scan.bound scans

theorem StepClause.Scanned.cons {known : Name → Prop} {clause : StepClause}
    {clauses : List StepClause} {pattern : Pattern} {source : Expr}
    {scans : List Scan} {first conditions : List Expr}
    (rest : Scanned (fun name => known name ∨ name ∈ pattern.occurrences)
      clauses scans conditions)
    (sourceWithin : source.Within known)
    (firstWithin : ∀ condition ∈ first,
      condition.Within fun name => known name ∨ name ∈ pattern.occurrences)
    (firstProduced : ∀ name ∈ clause.produced, known name ∨
      name ∈ pattern.occurrences) :
    Scanned known (clause :: clauses) (⟨pattern, some source⟩ :: scans)
      (first ++ conditions) := by
  have bound : Scan.bound (⟨pattern, some source⟩ :: scans) =
    pattern.occurrences ++ Scan.bound scans := rfl
  refine ⟨⟨sourceWithin, rest.sources⟩, List.forall_mem_append.mpr ⟨?_, ?_⟩,
    List.forall_mem_append.mpr ⟨?_, ?_⟩⟩
  · intro condition member
    refine (firstWithin condition member).mono fun name isKnown => ?_
    rw [bound, List.mem_append, ← or_assoc]
    exact .inl isKnown
  · intro condition member
    refine (rest.tests condition member).mono fun name isKnown => ?_
    rwa [bound, List.mem_append, ← or_assoc]
  · intro name member
    rw [bound, List.mem_append, ← or_assoc]
    exact .inl (firstProduced name member)
  · intro name member
    rw [bound, List.mem_append, ← or_assoc]
    exact rest.produced name member

namespace StepCase

variable {found increment : Name}

/-- The scans of a step bind what its clauses produce. -/
theorem scansOf_known {source : Expr → Expr}
    (sourceKept : ∀ expr, source expr = expr ∨ source expr = .var found)
    {known : Name → Prop} {clauses : List StepClause}
    (within : StepClause.areWithin known clauses) {inScope : List Name}
    (inScopeKnown : ∀ name ∈ inScope, known name) (foundKnown : known found)
    (incrementKnown : known increment) (supply : NameSupply) :
    (scansOf increment source clauses inScope).Ensures supply fun result _ =>
      StepClause.Scanned known clauses result.1 result.2 := by
  induction clauses generalizing known inScope supply with
  | nil => exact .pure ⟨trivial, nofun, nofun⟩
  | cons clause clauses induction =>
      -- Behind a renamed pattern all names are known that its clause produces.
      have behind {pattern result : Pattern} {renames : List (Name × Name)}
        {equations : List Expr}
          (clashes : pattern.RenamesClashes inScope result renames equations)
          (rest : StepClause.areWithin
            (fun name => known name ∨ name ∈ pattern.occurrences) clauses)
          (later : NameSupply) :
          (scansOf increment source clauses (inScope ++ result.vars)).Ensures
            later fun scanned _ => StepClause.Scanned
              (fun name => known name ∨ name ∈ result.occurrences)
              clauses scanned.1 scanned.2 := by
        refine induction ?_ ?_ (.inl foundKnown) (.inl incrementKnown) later
        · exact rest.mono fun name isKnown =>
            isKnown.elim .inl (clashes.known_of_mem inScopeKnown)
        · refine List.forall_mem_append.mpr ⟨?_, ?_⟩
          · exact fun name member => .inl (inScopeKnown name member)
          · exact fun name member => .inr (Pattern.mem_vars.mp member)
      have equated {pattern result : Pattern} {renames : List (Name × Name)}
        {equations : List Expr}
          (clashes : pattern.RenamesClashes inScope result renames equations) :
          ∀ equation ∈ equations,
            equation.Within fun name => known name ∨
            name ∈ result.occurrences :=
        fun equation member => (clashes.equations equation member).mono
          fun name isKnown => isKnown.imp_left (inScopeKnown name)
      cases clause with
      | filter condition =>
          refine .bind (induction within.2 inScopeKnown foundKnown
            incrementKnown supply) ?_
          intro result later _ scanned
          exact .pure ⟨scanned.sources, List.forall_mem_cons.mpr
            ⟨Expr.Within.mono within.1 fun _ => .inl, scanned.tests⟩,
            scanned.produced⟩
      | scan generator residual =>
          obtain ⟨sourceWithin, residualWithin, restWithin⟩ := within
          refine .bind (generator.pattern.renameClashes_spec inScope supply) ?_
          rintro ⟨pattern, renames, equations⟩ second _ clashes
          refine .bind (clashes.renameClauses_known residualWithin second) ?_
          intro renamed third _ renamedWithin
          refine .bind (behind clashes restWithin third) ?_
          intro result last _ scanned
          refine .pure (scanned.cons ?_
            (List.forall_mem_append.mpr ⟨equated clashes, renamedWithin⟩) ?_)
          · rcases sourceKept generator.source with same | isFound
            · rwa [same]
            · rw [isFound]
              exact fun name member => List.mem_singleton.mp member ▸ foundKnown
          · exact fun name member =>
              clashes.known_of_mem inScopeKnown (Pattern.mem_vars.mp member)
      | recursive function argument =>
          refine .bind (argument.renameClashes_spec inScope supply) ?_
          rintro ⟨pattern, renames, equations⟩ second _ clashes
          refine .bind (behind clashes within second) ?_
          intro result last _ scanned
          refine .pure (scanned.cons ?_ (equated clashes) ?_)
          · exact fun name member => List.mem_singleton.mp member ▸
              incrementKnown
          · exact fun name member =>
              clashes.known_of_mem inScopeKnown (Pattern.mem_vars.mp member)

theorem body_known {known : Name → Prop} {case : StepCase} {goals : List Name}
    (within : StepClause.areWithin known case.clauses)
    (covered : goals ⊆ case.clauses.flatMap StepClause.produced)
    (foundKnown : known found) (incrementKnown : known increment)
    (accumulated : Option Expr) (supply : NameSupply) :
    (case.body (.row goals) found increment accumulated).Ensures supply
      fun body _ => body.Within known := by
  refine .bind
    (scansOf_known (fun expr => ?_) within (List.forall_mem_nil _) foundKnown
    incrementKnown supply) ?_
  · split
    · exact .inr rfl
    · exact .inl rfl
  · intro result later _ scanned
    refine .pure (Query.within_filtered scanned.sources scanned.tests ?_)
    intro name member
    rw [Expr.freeVars_row] at member
    exact scanned.produced name (covered member)

end StepCase

namespace Recursion

variable {recursion : Recursion} {known : Name → Prop}
  (within : recursion.Within known)

include within

theorem within_baseRelation : recursion.baseRelation.Within known := by
  rw [baseRelation]
  split
  · have bound : Scan.bound [recursion.base.generator.scan] =
        recursion.base.generator.pattern.occurrences := List.append_nil _
    refine Query.within_filtered ⟨within.base.source, trivial⟩ ?_ ?_
    · rw [bound]
      exact within.base.residual
    · intro name member
      rw [Expr.freeVars_row] at member
      rw [bound]
      exact .inr (Pattern.mem_vars.mp (within.base.goals member))
  · exact within.base.source

theorem bodies_known {found increment : Name} (settings : Settings)
    {cases : List StepCase} (included : cases ⊆ recursion.steps)
    (supply : NameSupply) :
    (recursion.bodies settings found increment cases).Ensures supply
    fun bodies _ =>
      ∀ body ∈ bodies, body.Within fun name => known name ∨ name = found ∨
      name = increment := by
  induction cases generalizing supply with
  | nil => exact .pure nofun
  | cons case cases induction =>
      obtain ⟨first, rest⟩ := List.cons_subset.mp included
      obtain ⟨clausesWithin, covered⟩ := within.steps case first
      have allWithin : StepClause.areWithin
          (fun name => known name ∨ name = found ∨ name = increment)
          case.clauses :=
        clausesWithin.mono fun _ => .inl
      refine .bind (StepCase.body_known allWithin covered (.inr (.inl rfl))
        (.inr (.inr rfl)) _ supply) ?_
      intro body later _ bodyWithin
      refine .bind (induction rest later) ?_
      intro bodies last _ bodiesWithin
      exact .pure (List.forall_mem_cons.mpr ⟨bodyWithin, bodiesWithin⟩)

omit within in
theorem within_concatenated {bodies : List Expr}
    (bodiesWithin : ∀ body ∈ bodies, body.Within known) :
    (concatenated bodies).Within known :=
  @concatenated_of_forall (fun body => body.Within known) nofun
    (fun _ _ left right => List.forall_mem_append.mpr ⟨left, right⟩) bodies
    bodiesWithin

/-- A fixpoint mentions its builtin and what its relations mention. -/
theorem plan_known (builtins : ∀ name ∈ Builtin.names, known name)
    (settings : Settings) (supply : NameSupply) :
    (recursion.plan settings).Ensures supply fun fixpoint _ =>
    fixpoint.source.Within known := by
  have draws (base : Name) (supply : NameSupply) :
      (NameSupply.acquire base).Ensures supply fun _ _ => True :=
    .acquire (fun _ => trivial) trivial
  refine .bind (draws "old" supply) ?_
  intro found second _ _
  refine .bind (draws "new" second) ?_
  intro increment third _ _
  refine .bind (bodies_known within settings (List.Subset.refl _) third) ?_
  intro bodies last _ bodiesWithin
  refine .pure ?_
  intro name member
  rcases List.mem_append.mp member with inBase | inStep
  · rcases List.mem_cons.mp inBase with rfl | inRelation
    · refine builtins _ ?_
      cases recursion.base.generator.kind <;> decide
    · exact within_baseRelation within name inRelation
  · obtain ⟨inBodies, unbound⟩ := Name.mem_outside.mp inStep
    rcases within_concatenated bodiesWithin name inBodies with
      isKnown | rfl | rfl
    · exact isKnown
    · exact absurd
        (by simp [Pattern.occurrences, Pattern.occurrencesList]) unbound
    · exact absurd
        (by simp [Pattern.occurrences, Pattern.occurrencesList]) unbound

end Recursion

end RecursiveQuery
