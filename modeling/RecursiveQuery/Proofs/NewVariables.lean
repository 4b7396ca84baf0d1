import RecursiveQuery.Proofs.FreshenedPatterns
import RecursiveQuery.Proofs.KnownInversion

/-!
# New variables of generators

A clause is inverted to a generator that binds each of its variables once and
none that is bound before.  All names of the generator and of its residual
conditions are reserved, so that names drawn later differ from them.
-/

namespace RecursiveQuery

/-- A generator binds variables that are not bound yet, each once, and mentions
only some names. -/
structure Generator.IsNew (scope : Scope) (names : List Name)
    (generator : Generator) : Prop where
  distinct : generator.pattern.occurrences.Nodup
  unbound : ∀ name ∈ generator.pattern.occurrences, scope.isBound name = false
  pattern : generator.pattern.occurrences ⊆ names
  source : generator.source.freeVars ⊆ names

theorem Generator.IsNew.mono {scope : Scope} {names more : List Name}
    {generator : Generator} (isNew : generator.IsNew scope names)
    (subset : names ⊆ more) : generator.IsNew scope more :=
  ⟨isNew.distinct, isNew.unbound, List.Subset.trans isNew.pattern subset,
    List.Subset.trans isNew.source subset⟩

/-- What a join mentions its parts and conditions mention. -/
theorem Generator.freeVars_join {parts : List Generator} {residual : List Expr}
    {outputs names : List Name}
    (sources : ∀ part ∈ parts, part.source.freeVars ⊆ names)
    (conditions : ∀ condition ∈ residual, condition.freeVars ⊆ names)
    (produced : outputs ⊆ names) :
    (join parts residual outputs).source.freeVars ⊆ names := by
  have within : Scan.areWithin (· ∈ names) (parts.map scan) := by
    induction parts with
    | nil => trivial
    | cons part parts induction =>
        rw [List.forall_mem_cons] at sources
        exact ⟨sources.1, (induction sources.2).mono fun _ => .inl⟩
  apply Query.within_filtered within
  · intro condition member name isFree
    exact .inl (conditions condition member isFree)
  · intro name member
    rw [Expr.freeVars_row] at member
    exact .inl (produced member)

namespace Inversion

variable {pattern : Pattern} {side term argument : Expr} {function : Name}
  {names outputs : List Name} {joined : Joined}
  {invert : Scope → Expr → Naming Inversion}

def IsNew (scope : Scope) (names : List Name) : Inversion → Prop
  | generated generator residual =>
      generator.IsNew scope names ∧
      ∀ condition ∈ residual, condition.freeVars ⊆ names
  | filter => True
  | failed _ => True

theorem IsNew.mono {scope : Scope} {names more : List Name}
    {inversion : Inversion} (isNew : inversion.IsNew scope names)
    (subset : names ⊆ more) : inversion.IsNew scope more := by
  cases inversion with
  | generated generator residual =>
      exact ⟨isNew.1.mono subset,
        fun condition member =>
          List.Subset.trans (isNew.2 condition member) subset⟩
  | filter => trivial
  | failed obstacle => trivial

/-- Inversion of clauses with reserved names, where the bound names are reserved
as well, binds new variables. -/
def KeepsNew (program : Program) (invert : Scope → Expr → Naming Inversion) :
    Prop :=
  ∀ scope term supply, program.names ⊆ supply.used →
    term.allNames ⊆ supply.used → scope.BindsAmong supply.used →
    (invert scope term).Ensures supply fun inversion later =>
    inversion.IsNew scope later.used

variable {program : Program} {scope : Scope} {supply : NameSupply}

/-- A freshened pattern makes a new generator with each source that mentions
reserved names. -/
theorem freshen_isNew (patternReserved : pattern.occurrences ⊆ supply.used)
    (among : scope.BindsAmong supply.used) :
    (pattern.freshen scope).Ensures supply fun result later =>
      result.1.occurrences ⊆ later.used ∧
        ∀ generator : Generator, generator.pattern = result.1 →
          generator.source.freeVars ⊆ later.used →
          (generated generator result.2).IsNew scope later.used := by
  have freshened := (pattern.freshen_spec patternReserved among).and
    (pattern.freshen_equated supply)
  apply freshened.mono
  intro result later grown found
  obtain ⟨newPattern, equations⟩ := result
  obtain ⟨spec, equated⟩ := found
  refine ⟨spec.reserved, ?_⟩
  intro generator isPattern source
  dsimp only at isPattern spec equated
  subst isPattern
  refine ⟨⟨spec.distinct, spec.unbound, spec.reserved, source⟩, ?_⟩
  intro equation member name isFree
  rcases equated equation member name isFree with isBound | occurs
  · exact grown (among name isBound)
  · exact spec.reserved occurs

theorem occurrences_reserved (taken : side.toPattern? = some pattern)
    (reserved : side.allNames ⊆ supply.used) :
    pattern.occurrences ⊆ supply.used := by
  rw [← Expr.freeVars_of_toPattern? taken]
  exact List.Subset.trans (Expr.freeVars_subset_allNames side) reserved

theorem ofMember_isNew {left right : Expr}
    (leftReserved : left.allNames ⊆ supply.used)
    (rightReserved : right.allNames ⊆ supply.used)
    (among : scope.BindsAmong supply.used) :
    (ofMember program scope left right).Ensures supply fun inversion later =>
      inversion.IsNew scope later.used := by
  rw [ofMember]
  split
  · exact .pure trivial
  · split
    · exact .pure trivial
    · next pattern taken =>
        apply Naming.Ensures.bind
          (freshen_isNew (occurrences_reserved taken leftReserved) among)
        intro result later grown found
        apply Naming.Ensures.pure
        apply found.2 _ rfl
        exact List.Subset.trans (Expr.freeVars_subset_allNames right)
          (List.Subset.trans rightReserved grown)

theorem ofPattern_isNew {value : Expr} (taken : side.toPattern? = some pattern)
    (sideReserved : side.allNames ⊆ supply.used)
    (valueReserved : value.allNames ⊆ supply.used)
    (among : scope.BindsAmong supply.used) :
    (ofPattern scope pattern value).Ensures supply fun inversion later =>
      inversion.IsNew scope later.used := by
  apply Naming.Ensures.bind
    (freshen_isNew (occurrences_reserved taken sideReserved) among)
  intro result later grown found
  apply Naming.Ensures.pure
  apply found.2 _ rfl
  intro name member
  have inValue : name ∈ value.freeVars := by
    simpa [Generator.singleton, Expr.freeVars, Expr.freeVarsList] using member
  exact grown (valueReserved (Expr.freeVars_subset_allNames value inValue))

theorem ofEquality_isNew {left right : Expr}
    (leftReserved : left.allNames ⊆ supply.used)
    (rightReserved : right.allNames ⊆ supply.used)
    (among : scope.BindsAmong supply.used) :
    (ofEquality program scope term left right).Ensures supply
      fun inversion later => inversion.IsNew scope later.used := by
  rw [ofEquality]
  split
  · next pattern found =>
      exact ofPattern_isNew (of_equalityPattern? found).2 leftReserved
        rightReserved among
  · split
    · next pattern found =>
        exact ofPattern_isNew (of_equalityPattern? found).2 rightReserved
          leftReserved among
    · exact .pure trivial

theorem ofOpaqueCall_isNew (functionReserved : function ∈ supply.used)
    (reserved : argument.allNames ⊆ supply.used)
    (among : scope.BindsAmong supply.used) :
    (ofOpaqueCall scope term function argument).Ensures supply
      fun inversion later => inversion.IsNew scope later.used := by
  rw [ofOpaqueCall]
  split
  · exact .pure trivial
  · next pattern taken =>
      apply Naming.Ensures.bind
        (freshen_isNew (occurrences_reserved taken reserved) among)
      intro result later grown found
      obtain ⟨newPattern, residual⟩ := result
      dsimp only
      split
      · next row rebuilt =>
          apply Naming.Ensures.pure
          apply found.2 _ rfl
          intro name member
          have inCall : name ∈ (Expr.apply (.var function) row).freeVars := by
            have inCondition := (Expr.mem_of_mem_freeVarsScans
              (List.forall_mem_singleton.mpr rfl) member).1
            rw [Expr.freeVarsSteps, Expr.freeVarsSteps,
              List.append_nil] at inCondition
            exact inCondition
          rcases List.mem_cons.mp inCall with isFunction | inRow
          · rw [isFunction]
            exact grown functionReserved
          · rw [(Pattern.names_of_toExpr? rebuilt).1] at inRow
            exact found.1 inRow
      · exact .pure trivial

/-- What clauses have produced since some scope is new to that scope. -/
structure Joined.IsNew (scope : Scope) (names : List Name) (joined : Joined) :
    Prop where
  among : joined.scope.BindsAmong names
  bound : ∀ name, scope.isBound name = true → joined.scope.isBound name = true
  parts : ∀ part ∈ joined.parts, part.IsNew scope names
  residual : ∀ condition ∈ joined.residual, condition.freeVars ⊆ names

theorem Joined.IsNew.mono {more : List Name} (isNew : joined.IsNew scope names)
    (subset : names ⊆ more) : joined.IsNew scope more :=
  ⟨fun name isBound => subset (isNew.among name isBound), isNew.bound,
    fun part member => (isNew.parts part member).mono subset,
    fun condition member =>
      List.Subset.trans (isNew.residual condition member) subset⟩

theorem Joined.IsNew.generated {names : List Name} {joined : Joined}
    (isNew : joined.IsNew scope names) {generator : Generator}
    {residual : List Expr}
    (next : (Inversion.generated generator residual).IsNew joined.scope names) :
    Joined.IsNew scope names
      ⟨joined.scope.produce generator, joined.parts ++ [generator],
        joined.residual ++ residual⟩ := by
  obtain ⟨generatorNew, residualReserved⟩ := next
  refine ⟨isNew.among.produce generatorNew.pattern, ?_, ?_,
    List.forall_mem_append.mpr ⟨isNew.residual, residualReserved⟩⟩
  · intro name wasBound
    exact Scope.isBound_produce_iff.mpr (.inl (isNew.bound name wasBound))
  · apply List.forall_mem_append.mpr ⟨isNew.parts, ?_⟩
    intro part member
    rw [List.mem_singleton.mp member]
    refine ⟨generatorNew.distinct, ?_, generatorNew.pattern,
      generatorNew.source⟩
    intro name occurs
    rw [← Bool.not_eq_true]
    intro wasBound
    have isBound := isNew.bound name wasBound
    rw [generatorNew.unbound name occurs] at isBound
    cases isBound

theorem joinClauses_isNew (inverts : KeepsNew program invert)
    {clauses : List Expr} (declared : program.names ⊆ supply.used)
    (reserved : ∀ clause ∈ clauses, clause.allNames ⊆ supply.used)
    (isNew : joined.IsNew scope supply.used) :
    (joinClauses invert clauses joined).Ensures supply fun result later =>
      ∀ joined, result = .ok joined → joined.IsNew scope later.used := by
  induction clauses generalizing joined supply with
  | nil =>
      apply Naming.Ensures.pure
      intro other same
      cases same
      exact isNew
  | cons clause clauses induction =>
      rw [List.forall_mem_cons] at reserved
      apply Naming.Ensures.bind
        (inverts joined.scope clause supply declared reserved.1 isNew.among)
      intro inversion later grown found
      have stillDeclared := List.Subset.trans declared grown
      have restReserved : ∀ other ∈ clauses, other.allNames ⊆ later.used :=
        fun other member => List.Subset.trans (reserved.2 other member) grown
      have stillNew := isNew.mono grown
      cases inversion with
      | generated generator residual =>
          exact induction stillDeclared restReserved (stillNew.generated found)
      | filter =>
          apply induction stillDeclared restReserved
          refine ⟨stillNew.among, stillNew.bound, stillNew.parts, ?_⟩
          apply List.forall_mem_append.mpr ⟨stillNew.residual, ?_⟩
          intro condition member
          rw [List.mem_singleton.mp member]
          exact List.Subset.trans (Expr.freeVars_subset_allNames clause)
            (List.Subset.trans reserved.1 grown)
      | failed obstacle =>
          apply Naming.Ensures.pure
          intro other absurdity
          cases absurdity

theorem ofJoined_isNew (isNew : joined.IsNew scope names)
    (distinct : outputs.Nodup)
    (unbound : ∀ name ∈ outputs, scope.isBound name = false) :
    (ofJoined outputs joined).IsNew scope names := by
  rcases ofJoined_cases outputs joined with
    ⟨obstacle, failed⟩ |
    ⟨bound, ⟨none, filters⟩ | ⟨only, parts, -, keeps⟩ | ⟨-, joins⟩⟩
  · rw [failed]
    trivial
  · rw [filters]
    trivial
  · rw [keeps]
    exact ⟨isNew.parts only (parts ▸ List.mem_cons_self), isNew.residual⟩
  · have produced : outputs ⊆ names :=
      fun name member => isNew.among name (bound name member)
    rw [joins]
    refine ⟨⟨?_, ?_, ?_, ?_⟩, ?_⟩
    · exact (Pattern.occurrences_row outputs).symm ▸ distinct
    · intro name occurs
      exact unbound name (Pattern.occurrences_row outputs ▸ occurs)
    · exact (Pattern.occurrences_row outputs).symm ▸ produced
    · exact Generator.freeVars_join
        (fun part member => (isNew.parts part member).source)
        isNew.residual produced
    · intro condition member
      cases member

theorem ofBody_isNew (inverts : KeepsNew program invert) {body : Expr}
    (declared : program.names ⊆ supply.used)
    (reserved : body.allNames ⊆ supply.used)
    (among : scope.BindsAmong supply.used) (distinct : outputs.Nodup)
    (unbound : ∀ name ∈ outputs, scope.isBound name = false) :
    (ofBody program invert scope body outputs).Ensures supply
      fun inversion later => inversion.IsNew scope later.used := by
  apply ofBody_ensures (fun _ _ => trivial) (Scope.flatten_reserved reserved)
  · intro clause later grown clauseReserved
    exact inverts scope clause later (List.Subset.trans declared grown)
      (clauseReserved clause List.mem_cons_self) (among.mono grown)
  · intro clauses later grown clausesReserved
    have start : Joined.IsNew scope later.used ⟨scope, [], []⟩ := by
      refine ⟨among.mono grown, fun _ isBound => isBound, ?_, ?_⟩
      · intro part member
        cases member
      · intro condition member
        cases member
    apply (joinClauses_isNew inverts (List.Subset.trans declared grown)
      clausesReserved start).mono
    intro result last _ found joined isJoined
    exact ofJoined_isNew (found joined isJoined) distinct unbound

/-- Unfolding a body with reserved names binds new variables. -/
def UnfoldsNew (program : Program) (unfold : Unfolder) : Prop :=
  ∀ function scope body outputs supply, program.names ⊆ supply.used →
    body.allNames ⊆ supply.used → scope.BindsAmong supply.used → outputs.Nodup →
    (∀ name ∈ outputs, scope.isBound name = false) →
    (unfold function scope body outputs).Ensures supply fun inversion later =>
      inversion.IsNew scope later.used

variable {unfold : Unfolder} {active : List Name}

theorem ofCall_isNew (unfolds : UnfoldsNew program unfold)
    (declared : program.names ⊆ supply.used)
    (functionReserved : function ∈ supply.used)
    (reserved : argument.allNames ⊆ supply.used)
    (among : scope.BindsAmong supply.used) (distinct : outputs.Nodup)
    (unbound : ∀ name ∈ outputs, scope.isBound name = false) :
    (ofCall program unfold active scope term function argument outputs).Ensures
    supply fun inversion later => inversion.IsNew scope later.used := by
  rw [ofCall]
  split
  · exact .pure trivial
  · split
    · next name param body decl =>
        split
        · exact .pure trivial
        · split
          · exact .pure trivial
          · next replacements bound =>
              have isDeclared := (Program.decl?_eq_some decl).1
              have bodyReserved :=
                List.Subset.trans (Program.names_of_function isDeclared)
                  declared
              apply Naming.Ensures.bind (Expr.substitute_reserved bodyReserved
                (Pattern.bindArgument?_reserved reserved bound))
              intro newBody later grown newReserved
              exact unfolds function scope newBody outputs later
                (List.Subset.trans declared grown) newReserved
                (among.mono grown) distinct unbound
    · exact ofOpaqueCall_isNew functionReserved reserved among

theorem ofTerm_isNew (unfolds : UnfoldsNew program unfold) (nesting : Nat) :
    KeepsNew program (ofTerm program unfold active nesting) := by
  induction nesting with
  | zero =>
      intro scope term supply _ _ _
      exact .pure trivial
  | succ nesting induction =>
      intro scope term supply declared reserved among
      have distinct :
        (scope.unboundInOrder term (scope.locals program term)).Nodup :=
        Expr.nodup_appearanceOrder term _
      have unbound :
        ∀ name ∈ scope.unboundInOrder term (scope.locals program term),
          scope.isBound name = false :=
            fun name => Scope.isBound_of_mem_unboundInOrder
      rw [ofTerm]
      split
      · exact .pure trivial
      · split
        · next left right =>
            obtain ⟨leftReserved, rightReserved⟩ :=
              List.append_subset.mp reserved
            exact ofMember_isNew leftReserved rightReserved among
        · next left right =>
            obtain ⟨leftReserved, rightReserved⟩ :=
              List.append_subset.mp reserved
            exact ofEquality_isNew leftReserved rightReserved among
        · exact ofBody_isNew induction declared reserved among distinct unbound
        · exact ofBody_isNew induction declared reserved among distinct unbound
        · next function argument =>
            obtain ⟨functionReserved, argumentReserved⟩ :=
              List.append_subset.mp reserved
            exact ofCall_isNew unfolds declared
              (functionReserved List.mem_cons_self)
              argumentReserved among distinct unbound
        · exact .pure trivial

/-- Inverted clauses bind new variables. -/
theorem within_isNew (unfoldings : Nat) (active : List Name) :
    KeepsNew program (within program unfoldings active) := by
  induction unfoldings generalizing active with
  | zero =>
      intro scope term supply
      apply ofTerm_isNew
      intro function scope body outputs supply _ _ _ _ _
      exact .pure trivial
  | succ unfoldings induction =>
      intro scope term supply
      apply ofTerm_isNew
      intro function scope body outputs supply declared reserved among
        distinct unbound
      exact ofBody_isNew (induction (function :: active)) declared reserved
        among distinct unbound

end Inversion

end RecursiveQuery
