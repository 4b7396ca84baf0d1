import RecursiveQuery.Proofs.SeparateScans
import RecursiveQuery.Proofs.StepVariables

/-!
# Scans of steps

A step scans the relations of its clauses as they are, and the last increment in
place of a recursive call.  The variables of the call that are bound before get
new names, and equations with the old ones; after that all scans have separate
variables.
-/

namespace RecursiveQuery

theorem Scope.renameClauses_nil (clauses : List Expr) :
    renameClauses [] clauses = pure clauses := by
  induction clauses with
  | nil => rfl
  | cons clause clauses induction =>
      have unchanged : clause.renameFree [] = pure clause :=
        clause.substitute_nil
      rw [renameClauses, unchanged, pure_bind, induction, pure_bind]

/-- A generator in front of separate ones. -/
theorem Generator.Separate.cons {part : Generator} {parts : List Generator}
    (rest : Separate parts) (own : part.pattern.occurrences.Nodup)
    (apart : ∀ name ∈ part.pattern.occurrences, name ∉ boundBy parts)
    (source : ∀ name ∈ part.source.freeVars, name ∉ boundBy (part :: parts)) :
    Separate (part :: parts) := by
  constructor
  · apply List.nodup_append.mpr
    refine ⟨own, rest.distinct, ?_⟩
    intro name occurs other isOther equal
    exact apart name occurs (equal ▸ isOther)
  · intro before other behind equality
    cases before with
    | nil =>
        cases equality
        exact source
    | cons first before =>
        cases equality
        exact rest.inOrder before other behind rfl

namespace Pattern

/-- The variables of a pattern that are in scope have got different new names,
and the equations say so. -/
structure SetApart (pattern : Pattern) (inScope : List Name)
    (supply : NameSupply) (result : Pattern) (renames : List (Name × Name))
    (equations : List Expr) (later : NameSupply) : Prop where
  result : result = pattern.rename (Name.renamed renames)
  renamed : renames.map Prod.fst = pattern.vars.filter inScope.contains
  distinct : (renames.map Prod.snd).Nodup
  new : ∀ rename ∈ renames, rename.2 ∉ supply.used
  reserved : ∀ rename ∈ renames, rename.2 ∈ later.used
  equations : equations =
    renames.map fun rename => .equals (.var rename.1) (.var rename.2)

theorem renameClashes_setApart (pattern : Pattern) (inScope : List Name)
    (supply : NameSupply) :
    (pattern.renameClashes inScope).Ensures supply fun result later =>
      pattern.SetApart inScope supply result.1 result.2.1 result.2.2 later := by
  have refreshed :=
    (Naming.refresh_spec (pattern.vars.filter inScope.contains) supply).and
    (Naming.refresh_distinct (pattern.vars.filter inScope.contains) supply)
  apply Naming.Ensures.bind refreshed
  intro renames later _ found
  obtain ⟨⟨renamed, targets⟩, distinct⟩ := found
  apply Naming.Ensures.pure
  exact ⟨rfl, renamed, distinct, fun rename member => (targets rename member).1,
    fun rename member => (targets rename member).2, rfl⟩

namespace SetApart

variable {pattern result : Pattern} {inScope : List Name}
  {supply later : NameSupply}
  {renames : List (Name × Name)} {equations : List Expr}

theorem occurrences
    (apart : pattern.SetApart inScope supply result renames equations later) :
    result.occurrences = pattern.occurrences.map (Name.renamed renames) := by
  rw [apart.result, occurrences_rename]

/-- A variable that is in scope has a new name, and another one keeps its
name. -/
theorem cases
    (apart : pattern.SetApart inScope supply result renames equations later)
    {name : Name} (occurs : name ∈ pattern.occurrences) :
    (name ∈ inScope ∧ (name, Name.renamed renames name) ∈ renames) ∨
      (name ∉ inScope ∧ Name.renamed renames name = name) := by
  have isKey : name ∈ renames.map Prod.fst ↔ name ∈ inScope := by
    rw [apart.renamed, List.mem_filter, mem_vars, List.contains_iff_mem,
      and_iff_right occurs]
  rcases Name.renamed_cases renames name with member | ⟨absent, same⟩
  · exact .inl ⟨isKey.mp (List.mem_map_of_mem member), member⟩
  · right
    refine ⟨?_, same⟩
    intro wasInScope
    obtain ⟨target, found⟩ :=
      NameMap.exists_lookup_of_mem (isKey.mpr wasInScope)
    rw [absent] at found
    cases found

/-- Where no variable is in scope, nothing changes. -/
theorem eq_of_outside
    (apart : pattern.SetApart inScope supply result renames equations later)
    (outside : ∀ name ∈ pattern.occurrences, name ∉ inScope) :
    result = pattern ∧ renames = [] ∧ equations = [] := by
  have none : renames = [] := by
    apply List.map_eq_nil_iff.mp
    rw [apart.renamed]
    apply List.filter_eq_nil_iff.mpr
    intro name member
    rw [List.contains_iff_mem]
    exact outside name (mem_vars.mp member)
  refine ⟨?_, none, ?_⟩
  · rw [apart.result, none]
    exact pattern.rename_id
  · rw [apart.equations, none, List.map_nil]

section Names

variable (apart :
  pattern.SetApart inScope supply result renames equations later)

include apart

theorem nodup (patternReserved : pattern.occurrences ⊆ supply.used)
    (once : pattern.occurrences.Nodup) : result.occurrences.Nodup := by
  rw [apart.occurrences]
  apply once.map_on
  intro name occurs other otherOccurs equal
  exact Name.renamed_injective apart.new apart.distinct (patternReserved occurs)
    (patternReserved otherOccurs) equal

theorem outside (inScopeReserved : inScope ⊆ supply.used) :
    ∀ name ∈ result.occurrences, name ∉ inScope := by
  intro name member
  rw [apart.occurrences] at member
  obtain ⟨old, occurs, isNew⟩ := List.mem_map.mp member
  subst isNew
  intro wasInScope
  rcases apart.cases occurs with ⟨-, isRename⟩ | ⟨notInScope, same⟩
  · exact apart.new _ isRename (inScopeReserved wasInScope)
  · rw [same] at wasInScope
    exact notInScope wasInScope

theorem mem_or_mem : ∀ name ∈ result.occurrences,
    name ∈ pattern.occurrences ∨ name ∈ renames.map Prod.snd := by
  intro name member
  rw [apart.occurrences] at member
  obtain ⟨old, occurs, isNew⟩ := List.mem_map.mp member
  subst isNew
  rcases apart.cases occurs with ⟨-, isRename⟩ | ⟨-, same⟩
  · exact .inr (List.mem_map_of_mem isRename)
  · rw [same]
    exact .inl occurs

theorem inScope_or_mem : ∀ name ∈ pattern.occurrences,
    name ∈ inScope ∨ name ∈ result.occurrences := by
  intro name occurs
  rcases apart.cases occurs with ⟨wasInScope, -⟩ | ⟨-, same⟩
  · exact .inl wasInScope
  · rw [apart.occurrences]
    exact .inr (List.mem_map.mpr ⟨name, occurs, same⟩)

theorem of_mem {rename : Name × Name} (isRename : rename ∈ renames) :
    rename.1 ∈ pattern.occurrences ∧
      Name.renamed renames rename.1 = rename.2 := by
  have isKey : rename.1 ∈ pattern.vars.filter inScope.contains := by
    rw [← apart.renamed]
    exact List.mem_map_of_mem isRename
  have distinctKeys : (NameMap.keys renames).Nodup := by
    rw [NameMap.keys, apart.renamed]
    exact (nodup_eraseDups _).filter _
  refine ⟨mem_vars.mp (List.mem_filter.mp isKey).1, ?_⟩
  rw [Name.renamed, NameMap.lookup_of_mem distinctKeys isRename]
  rfl

theorem targets_subset : renames.map Prod.snd ⊆ result.occurrences := by
  intro target member
  obtain ⟨rename, isRename, isTarget⟩ := List.mem_map.mp member
  obtain ⟨occurs, isNew⟩ := apart.of_mem isRename
  rw [apart.occurrences]
  exact List.mem_map.mpr ⟨rename.1, occurs, isNew.trans isTarget⟩

end Names

end SetApart

end Pattern

namespace StepClause

/-- The variables that the source of a clause mentions. -/
def sourceVars : StepClause → List Name
  | scan generator _ => generator.source.freeVars
  | filter _ => []
  | recursive _ _ => []

/-- No source mentions a variable that its clause or a later one is the first to
produce. -/
def areInOrder (before : List Name) : List StepClause → Bool
  | [] => true
  | clause :: clauses =>
      (clause.sourceVars.all fun name =>
        before.contains name ||
          !((clause :: clauses).flatMap produced).contains name) &&
        areInOrder (before ++ clause.produced) clauses

/-- The variables of a recursive call occur once each. -/
def isLinear : StepClause → Bool
  | scan _ _ => true
  | filter _ => true
  | recursive _ argument => argument.occurrences.Nodup

/-- The scans and conditions of a clause: those of a relation are its own, and
the scan of the increment has new names for some variables of the call. -/
inductive Realizes (increment : Name) (aliases : List (Name × Name)) :
    StepClause → List Generator → List Expr → Prop where
  | scan (generator : Generator) (residual : List Expr) :
      Realizes increment aliases (.scan generator residual) [generator] residual
  | filter (condition : Expr) :
      Realizes increment aliases (.filter condition) [] [condition]
  | recursive (function : Name) (argument : Pattern) (change : Name → Name)
      (equations : List Expr) :
      (∀ name ∈ argument.occurrences, change name = name ∨
        (name, change name) ∈ aliases ∧
        .equals (.var name) (.var (change name)) ∈ equations) →
      (∀ equation ∈ equations, ∃ name ∈ argument.occurrences,
        (name, change name) ∈ aliases ∧
        equation = .equals (.var name) (.var (change name))) →
      Realizes increment aliases (.recursive function argument)
        [⟨argument.rename change, .var increment, .list, .finite⟩] equations

inductive AreRealized (increment : Name) (aliases : List (Name × Name)) :
    List StepClause → List Generator → List Expr → Prop where
  | nil : AreRealized increment aliases [] [] []
  | cons {clause : StepClause} {clauses : List StepClause}
      {first parts : List Generator}
      {tests conditions : List Expr} :
        Realizes increment aliases clause first tests →
      AreRealized increment aliases clauses parts conditions →
      AreRealized increment aliases (clause :: clauses) (first ++ parts)
        (tests ++ conditions)

theorem Realizes.mono {increment : Name} {aliases more : List (Name × Name)}
    {clause : StepClause} {parts : List Generator} {conditions : List Expr}
    (realizes : Realizes increment aliases clause parts conditions)
    (subset : aliases ⊆ more) :
    Realizes increment more clause parts conditions := by
  cases realizes with
  | scan => exact .scan _ _
  | filter => exact .filter _
  | recursive function argument change equations changed areEquations =>
      apply Realizes.recursive
      · intro name occurs
        exact (changed name occurs).imp_right fun both =>
          ⟨subset both.1, both.2⟩
      · intro equation member
        obtain ⟨name, occurs, isPair, same⟩ := areEquations equation member
        exact ⟨name, occurs, subset isPair, same⟩

theorem AreRealized.mono {increment : Name} {aliases more : List (Name × Name)}
    {clauses : List StepClause} {parts : List Generator}
    {conditions : List Expr}
    (realized : AreRealized increment aliases clauses parts conditions)
    (subset : aliases ⊆ more) :
    AreRealized increment more clauses parts conditions := by
  induction realized with
  | nil => exact .nil
  | cons first _ induction => exact .cons (first.mono subset) induction

/-- A call whose variables are set apart is realized by its new names. -/
theorem Realizes.of_setApart {increment function : Name}
    {argument result : Pattern} {inScope : List Name}
    {supply later : NameSupply} {renames : List (Name × Name)}
    {equations : List Expr}
    (apart : argument.SetApart inScope supply result renames equations later) :
    Realizes increment renames (.recursive function argument)
      [⟨argument.rename (Name.renamed renames), .var increment, .list, .finite⟩]
        equations := by
  apply Realizes.recursive
  · intro name occurs
    rcases apart.cases occurs with ⟨-, isRename⟩ | ⟨-, same⟩
    · right
      refine ⟨isRename, ?_⟩
      rw [apart.equations]
      exact List.mem_map.mpr ⟨_, isRename, rfl⟩
    · exact .inl same
  · intro equation member
    rw [apart.equations] at member
    obtain ⟨rename, isRename, same⟩ := List.mem_map.mp member
    obtain ⟨occurs, isTarget⟩ := apart.of_mem isRename
    rw [← same, ← isTarget]
    refine ⟨rename.1, occurs, ?_, rfl⟩
    rw [isTarget]
    exact isRename

/-- Scans of what clauses produce, where variables in scope have aliases: all
bound variables are new and separate. -/
structure ScansApart (inScope : List Name) (supply : NameSupply)
    (clauses : List StepClause) (parts : List Generator)
    (aliases : List (Name × Name)) : Prop where
  separate : Generator.Separate parts
  outside : ∀ name ∈ Generator.boundBy parts, name ∉ inScope
  bound : ∀ name ∈ Generator.boundBy parts,
    name ∈ clauses.flatMap produced ∨ name ∈ aliases.map Prod.snd
  produced : ∀ name ∈ clauses.flatMap produced, name ∈ inScope ∨
    name ∈ Generator.boundBy parts
  distinct : (aliases.map Prod.snd).Nodup
  new : ∀ pair ∈ aliases, pair.2 ∉ supply.used
  targets : aliases.map Prod.snd ⊆ Generator.boundBy parts
  originals : aliases.map Prod.fst ⊆ clauses.flatMap StepClause.produced

namespace ScansApart

variable {inScope : List Name} {supply later : NameSupply}
  {clauses : List StepClause}
  {parts : List Generator} {aliases : List (Name × Name)}

theorem nil (inScope : List Name) (supply : NameSupply) :
    ScansApart inScope supply [] [] [] := by
  refine ⟨⟨List.nodup_nil, ?_⟩, ?_, ?_, ?_, List.nodup_nil, ?_,
    List.Subset.refl _, List.Subset.refl _⟩
  · intro before part behind equality
    have nonempty : before ++ part :: behind ≠ [] := by simp
    exact absurd equality.symm nonempty
  · intro name member
    cases member
  · intro name member
    cases member
  · intro name member
    cases member
  · intro pair member
    cases member

/-- A filter scans nothing. -/
theorem filter (rest : ScansApart inScope supply clauses parts aliases)
    (condition : Expr) :
    ScansApart inScope supply (.filter condition :: clauses) parts aliases :=
  ⟨rest.separate, rest.outside, rest.bound, rest.produced, rest.distinct,
    rest.new, rest.targets, rest.originals⟩

/-- A pattern that is set apart, in front of what stands behind it. -/
theorem cons {clause : StepClause} {pattern result : Pattern}
    {renames : List (Name × Name)} {equations : List Expr}
    (isPattern : clause.produced = pattern.vars)
    (apart : pattern.SetApart inScope supply result renames equations later)
    (grown : supply.used ⊆ later.used) (inScopeReserved : inScope ⊆ supply.used)
    (patternReserved : pattern.occurrences ⊆ supply.used)
    (once : pattern.occurrences.Nodup)
    (rest : ScansApart (inScope ++ result.vars) later clauses parts aliases)
    {part : Generator} (isResult : part.pattern = result)
    (sourceReserved : part.source.freeVars ⊆ supply.used)
    (inOrder : ∀ name ∈ part.source.freeVars, name ∈
      (clause :: clauses).flatMap StepClause.produced → name ∈ inScope) :
    ScansApart inScope supply (clause :: clauses) (part :: parts)
      (renames ++ aliases) := by
  subst isResult
  have ownOutside := apart.outside inScopeReserved
  have restOutside : ∀ name ∈ Generator.boundBy parts,
      name ∉ inScope ∧ name ∉ part.pattern.occurrences := by
    intro name member
    have outside := rest.outside name member
    rw [List.mem_append, Pattern.mem_vars, not_or] at outside
    exact outside
  have produced : (clause :: clauses).flatMap StepClause.produced =
      pattern.vars ++ clauses.flatMap StepClause.produced := by
    rw [List.flatMap_cons, isPattern]
  have bound : ∀ name ∈ Generator.boundBy (part :: parts),
      name ∈ (clause :: clauses).flatMap StepClause.produced ∨
        name ∈ (renames ++ aliases).map Prod.snd := by
    intro name member
    rw [produced, List.mem_append, Pattern.mem_vars, List.map_append,
      List.mem_append]
    rcases List.mem_append.mp member with own | behind
    · exact (apart.mem_or_mem name own).imp .inl .inl
    · exact (rest.bound name behind).imp .inr .inr
  have new : ∀ pair ∈ renames ++ aliases, pair.2 ∉ supply.used := by
    apply List.forall_mem_append.mpr ⟨apart.new, ?_⟩
    intro pair member isUsed
    exact rest.new pair member (grown isUsed)
  have outside : ∀ name ∈ Generator.boundBy (part :: parts),
    name ∉ inScope := by
    intro name member
    rcases List.mem_append.mp member with own | behind
    · exact ownOutside name own
    · exact (restOutside name behind).1
  refine ⟨rest.separate.cons (apart.nodup patternReserved once) ?_ ?_, outside,
    bound, ?_, ?_, new, ?_, ?_⟩
  · intro name own behind
    exact (restOutside name behind).2 own
  · intro name inSource isBound
    rcases bound name isBound with isProduced | isTarget
    · exact outside name isBound (inOrder name inSource isProduced)
    · obtain ⟨pair, isPair, same⟩ := List.mem_map.mp isTarget
      subst same
      exact new pair isPair (sourceReserved inSource)
  · intro name isProduced
    rw [produced, List.mem_append, Pattern.mem_vars] at isProduced
    rcases isProduced with own | behind
    · exact (apart.inScope_or_mem name own).imp_right (List.mem_append_left _)
    · rcases rest.produced name behind with inner | later
      · rw [List.mem_append, Pattern.mem_vars] at inner
        exact inner.imp_right (List.mem_append_left _)
      · exact .inr (List.mem_append_right _ later)
  · rw [List.map_append]
    apply List.nodup_append.mpr
    refine ⟨apart.distinct, rest.distinct, ?_⟩
    intro target isTarget other isOther equal
    subst equal
    obtain ⟨rename, isRename, same⟩ := List.mem_map.mp isTarget
    obtain ⟨pair, isPair, samePair⟩ := List.mem_map.mp isOther
    apply rest.new pair isPair
    rw [samePair, ← same]
    exact apart.reserved rename isRename
  · rw [List.map_append]
    apply List.append_subset.mpr
    exact ⟨fun target isTarget =>
      List.mem_append_left _ (apart.targets_subset isTarget),
      fun target isTarget => List.mem_append_right _ (rest.targets isTarget)⟩
  · rw [produced, List.map_append]
    apply List.append_subset.mpr
    refine ⟨?_, fun name isOriginal =>
      List.mem_append_right _ (rest.originals isOriginal)⟩
    intro name isOriginal
    obtain ⟨rename, isRename, same⟩ := List.mem_map.mp isOriginal
    subst same
    exact List.mem_append_left _
      (Pattern.mem_vars.mpr (apart.of_mem isRename).1)

end ScansApart

/-- Scans and conditions that realize clauses.  They bind the variables of the
clauses and the aliases, each once, where the aliases and the increment differ
from all names of the clauses. -/
structure Realization (increment : Name) (names : List Name)
    (clauses : List StepClause) (parts : List Generator)
    (conditions : List Expr) (aliases : List (Name × Name)) : Prop where
  realized : AreRealized increment aliases clauses parts conditions
  among : ∀ clause ∈ clauses, clause.IsAmong names
  separate : Generator.Separate parts
  bound : ∀ name, name ∈ Generator.boundBy parts ↔
    name ∈ clauses.flatMap produced ∨ name ∈ aliases.map Prod.snd
  distinct : (aliases.map Prod.snd).Nodup
  fresh : ∀ name ∈ names, name ∉ aliases.map Prod.snd
  originals : aliases.map Prod.fst ⊆ clauses.flatMap produced
  apart : increment ∉ Generator.boundBy parts

/-- The names in scope behind some clauses: they have all variables that these
produce, and of the names of a step only these. -/
structure InScope (names before inScope : List Name) (supply : NameSupply) :
    Prop where
  names_reserved : names ⊆ supply.used
  reserved : inScope ⊆ supply.used
  produced : before ⊆ inScope
  named : ∀ name ∈ inScope, name ∈ names → name ∈ before

/-- Behind a pattern that is set apart its variables are in scope. -/
theorem InScope.behind {names before inScope : List Name}
    {supply later : NameSupply} {pattern result : Pattern}
    {renames : List (Name × Name)} {equations : List Expr}
    (tracked : InScope names before inScope supply)
    (apart : pattern.SetApart inScope supply result renames equations later)
    (grown : supply.used ⊆ later.used)
    (patternAmong : pattern.occurrences ⊆ names) :
    InScope names (before ++ pattern.vars) (inScope ++ result.vars) later := by
  refine ⟨List.Subset.trans tracked.names_reserved grown, ?_, ?_, ?_⟩
  · intro name member
    rcases List.mem_append.mp member with wasInScope | own
    · exact grown (tracked.reserved wasInScope)
    · rcases apart.mem_or_mem name (Pattern.mem_vars.mp own) with
        kept | isTarget
      · exact grown (tracked.names_reserved (patternAmong kept))
      · obtain ⟨rename, isRename, same⟩ := List.mem_map.mp isTarget
        exact same ▸ apart.reserved rename isRename
  · intro name member
    rcases List.mem_append.mp member with isBefore | own
    · exact List.mem_append_left _ (tracked.produced isBefore)
    · rw [List.mem_append, Pattern.mem_vars]
      exact apart.inScope_or_mem name (Pattern.mem_vars.mp own)
  · intro name member isName
    rcases List.mem_append.mp member with wasInScope | own
    · exact List.mem_append_left _ (tracked.named name wasInScope isName)
    · rcases apart.mem_or_mem name (Pattern.mem_vars.mp own) with
        kept | isTarget
      · exact List.mem_append_right _ (Pattern.mem_vars.mpr kept)
      · obtain ⟨rename, isRename, same⟩ := List.mem_map.mp isTarget
        exact absurd (tracked.names_reserved isName)
          (same ▸ apart.new rename isRename)

end StepClause

namespace StepCase

variable {names : List Name} {increment : Name}
variable {supply : NameSupply}

/-- The scans of a step realize its clauses, with separate variables. -/
theorem scansOf_realizes {clauses : List StepClause}
    {before inScope : List Name}
    (among : ∀ clause ∈ clauses, clause.IsAmong names)
    (linear : ∀ clause ∈ clauses, clause.isLinear = true)
    (areNew : StepClause.areNew before clauses)
    (inOrder : StepClause.areInOrder before clauses = true)
    (incrementReserved : increment ∈ supply.used)
    (incrementNew : increment ∉ names)
    (tracked : StepClause.InScope names before inScope supply) :
    (scansOf increment id clauses inScope).Ensures supply fun result _ =>
      ∃ parts aliases, result.1 = parts.map Generator.scan ∧
        StepClause.AreRealized increment aliases clauses parts result.2 ∧
        StepClause.ScansApart inScope supply clauses parts aliases := by
  induction clauses generalizing before inScope supply with
  | nil => exact .pure ⟨[], [], rfl, .nil, .nil inScope supply⟩
  | cons clause clauses induction =>
      rw [List.forall_mem_cons] at among linear
      obtain ⟨clauseNew, restNew⟩ := areNew
      rw [StepClause.areInOrder, Bool.and_eq_true, List.all_eq_true] at inOrder
      obtain ⟨clauseInOrder, restInOrder⟩ := inOrder
      cases clause with
      | filter condition =>
          rw [StepClause.produced, List.append_nil] at restNew restInOrder
          apply Naming.Ensures.bind
            (induction among.2 linear.2 restNew restInOrder
            incrementReserved tracked)
          intro result later _ found
          obtain ⟨parts, aliases, isParts, realized, apart⟩ := found
          exact .pure
            ⟨parts, aliases, isParts, .cons (.filter condition) realized,
            apart.filter condition⟩
      | scan generator residual =>
          obtain ⟨patternAmong, sourceAmong, residualAmong⟩ := among.1
          apply Naming.Ensures.bind
            (generator.pattern.renameClashes_setApart inScope supply)
          intro result middle grown apart
          obtain ⟨pattern, renames, equations⟩ := result
          have outside : ∀ name ∈ generator.pattern.occurrences,
            name ∉ inScope := by
            intro name occurs wasInScope
            exact clauseNew.2 name occurs
              (tracked.named name wasInScope (patternAmong occurs))
          obtain ⟨isPattern, noRenames, noEquations⟩ :=
            apart.eq_of_outside outside
          dsimp only at apart isPattern noRenames noEquations ⊢
          subst isPattern noRenames noEquations
          rw [Scope.renameClauses_nil, pure_bind]
          apply Naming.Ensures.bind
            (induction among.2 linear.2 restNew restInOrder
            (grown incrementReserved) (tracked.behind apart grown patternAmong))
          intro scanned later _ found
          obtain ⟨parts, aliases, isParts, realized, restApart⟩ := found
          apply Naming.Ensures.pure
          refine ⟨generator :: parts, aliases, ?_,
            .cons (.scan generator residual) realized, ?_⟩
          · rw [List.map_cons, ← isParts]
            rfl
          · apply restApart.cons rfl apart grown tracked.reserved
              (List.Subset.trans patternAmong tracked.names_reserved)
              clauseNew.1 rfl
              (List.Subset.trans sourceAmong tracked.names_reserved)
            intro name inSource isProduced
            have either := clauseInOrder name inSource
            rw [List.contains_iff_mem.mpr isProduced, Bool.not_true,
              Bool.or_false, List.contains_iff_mem] at either
            exact tracked.produced either
      | recursive function argument =>
          have argumentAmong : argument.occurrences ⊆ names := among.1
          have once : argument.occurrences.Nodup := of_decide_eq_true linear.1
          apply Naming.Ensures.bind
            (argument.renameClashes_setApart inScope supply)
          intro result middle grown apart
          obtain ⟨pattern, renames, equations⟩ := result
          dsimp only at apart ⊢
          apply Naming.Ensures.bind
            (induction among.2 linear.2 restNew restInOrder
            (grown incrementReserved)
            (tracked.behind apart grown argumentAmong))
          intro scanned later _ found
          obtain ⟨parts, aliases, isParts, realized, restApart⟩ := found
          apply Naming.Ensures.pure
          refine ⟨⟨argument.rename (Name.renamed renames), .var increment,
            .list, .finite⟩ :: parts, renames ++ aliases, ?_,
            .cons ((StepClause.Realizes.of_setApart apart).mono
              (List.subset_append_left _ _))
              (realized.mono (List.subset_append_right _ _)), ?_⟩
          · rw [List.map_cons, ← isParts, apart.result]
            rfl
          · apply restApart.cons rfl apart grown tracked.reserved
              (List.Subset.trans argumentAmong tracked.names_reserved) once
              apart.result.symm
            · intro name isIncrement
              rw [List.mem_singleton.mp isIncrement]
              exact incrementReserved
            · intro name isIncrement isProduced
              rw [List.mem_singleton.mp isIncrement] at isProduced
              exact absurd (StepClause.IsAmong.produced
                (List.forall_mem_cons.mpr among) isProduced) incrementNew

/-- The body of a step scans a realization of its clauses. -/
theorem body_realizes {case : StepCase}
    (among : ∀ clause ∈ case.clauses, clause.IsAmong names)
    (areNew : StepClause.areNew [] case.clauses)
    (linear : ∀ clause ∈ case.clauses, clause.isLinear = true)
    (inOrder : StepClause.areInOrder [] case.clauses = true)
    (reserved : names ⊆ supply.used)
    (incrementReserved : increment ∈ supply.used)
    (incrementNew : increment ∉ names) (goal : Expr) (found : Name) :
    (case.body goal found increment none).Ensures supply fun body _ =>
      ∃ parts conditions aliases,
        body = .collect (.filtered (parts.map Generator.scan) conditions goal) ∧
        StepClause.Realization increment names case.clauses parts conditions
          aliases := by
  have kept : (fun expr : Expr => if none = some expr then Expr.var found else
    expr) = id := by
    funext expr
    exact if_neg (Option.some_ne_none expr).symm
  rw [body, kept]
  have nothing : StepClause.InScope names [] [] supply :=
    ⟨reserved, List.nil_subset _, List.Subset.refl _, List.forall_mem_nil _⟩
  apply Naming.Ensures.bind
    (scansOf_realizes among linear areNew inOrder incrementReserved
    incrementNew nothing)
  intro result later _ found
  obtain ⟨parts, aliases, isParts, realized, apart⟩ := found
  apply Naming.Ensures.pure
  refine ⟨parts, result.2, aliases, ?_, ?_⟩
  · rw [← isParts]
  · have produced : ∀ name ∈ case.clauses.flatMap StepClause.produced,
        name ∈ Generator.boundBy parts := fun name isProduced =>
      (apart.produced name isProduced).resolve_left List.not_mem_nil
    have notTarget {name : Name} (isReserved : name ∈ supply.used) :
        name ∉ aliases.map Prod.snd := by
      intro isTarget
      obtain ⟨pair, isPair, same⟩ := List.mem_map.mp isTarget
      exact apart.new pair isPair (same ▸ isReserved)
    refine ⟨realized, among, apart.separate, ?_, apart.distinct, ?_,
      apart.originals, ?_⟩
    · intro name
      exact ⟨apart.bound name,
        fun either => either.elim (produced name) fun isTarget =>
        apart.targets isTarget⟩
    · intro name isName
      exact notTarget (reserved isName)
    · intro isBound
      rcases apart.bound increment isBound with isProduced | isTarget
      · exact incrementNew (StepClause.IsAmong.produced among isProduced)
      · exact notTarget incrementReserved isTarget

end StepCase

end RecursiveQuery
