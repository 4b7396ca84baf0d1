import RecursiveQuery.Proofs.InversionCases
import RecursiveQuery.Proofs.KnownNames

/-!
# Known names of inversions

The source of a finite generator mentions nothing but what is known where the
clause stands, and its residual conditions mention the generated variables
besides.  The call of a function may be kept as a condition, so that functions
have to mention all their parameters.
-/

namespace RecursiveQuery

variable {name : Name}

/-- The bodies of all functions mention all of their parameters, which have no
wildcards. -/
def Program.UsesParameters (program : Program) : Prop :=
  ∀ name param body, .function name param body ∈ program.decls →
    param.toExpr?.isSome = true ∧ param.occurrences ⊆ body.freeVars

theorem Program.names_of_function {program : Program} {param : Pattern}
    {body : Expr} (declared : .function name param body ∈ program.decls) :
    body.allNames ⊆ program.names := by
  intro other member
  exact List.mem_flatMap.mpr ⟨_, declared, by simp [Decl.names, member]⟩

theorem Scope.knows_produce {scope : Scope} {program : Program}
    {generator : Generator} :
    (scope.produce generator).Knows program name ↔
      scope.Knows program name ∨ name ∈ generator.pattern.occurrences := by
  rw [Knows, Knows, isBound_produce_iff, or_right_comm]

theorem Cardinality.join_eq_finite {left right : Cardinality} :
    left.join right = finite ↔ left = finite ∧ right = finite := by
  cases left <;> cases right <;> decide

theorem NameMap.lookup_of_mem {α : Type} {map : NameMap α} {value : α}
    (distinct : map.keys.Nodup) (member : (name, value) ∈ map) :
    map.lookup name = some value := by
  induction map with
  | nil => cases member
  | cons entry entries induction =>
      obtain ⟨key, first⟩ := entry
      obtain ⟨absent, restDistinct⟩ := List.nodup_cons.mp distinct
      rcases List.mem_cons.mp member with same | later
      · cases same
        exact List.lookup_cons_self
      · have different : (name == key) = false := by
          rw [beq_eq_false_iff_ne]
          rintro rfl
          exact absent (List.mem_map.mpr ⟨_, later, rfl⟩)
        rw [List.lookup_cons, different]
        exact induction restDistinct later

namespace Generator

variable {parts : List Generator}

theorem foldl_eq_finite {start : Cardinality} :
    parts.foldl (fun cardinality part => cardinality.join part.cardinality)
      start = .finite ↔
      start = .finite ∧ ∀ part ∈ parts, part.cardinality = .finite := by
  induction parts generalizing start with
  | nil => simp
  | cons part parts induction =>
      rw [List.foldl_cons, induction, Cardinality.join_eq_finite,
        List.forall_mem_cons, and_assoc]

/-- A product is finite if all its parts are. -/
theorem isFinite_join {residual : List Expr} {output : List Name} :
    (join parts residual output).isFinite = true ↔
    ∀ part ∈ parts, part.isFinite = true := by
  simp only [isFinite, join, decide_eq_true_eq, foldl_eq_finite, true_and]

end Generator

theorem Expr.allNames_of_mem_tuple {supply : NameSupply} (items : List Expr)
    (reserved : (tuple items).allNames ⊆ supply.used) :
    ∀ item ∈ items, item.allNames ⊆ supply.used := by
  have reserved : allNamesList items ⊆ supply.used := reserved
  induction items with
  | nil => exact nofun
  | cons item items induction =>
      obtain ⟨first, rest⟩ := List.append_subset.mp reserved
      exact List.forall_mem_cons.mpr ⟨first, induction rest rest⟩

namespace Pattern

variable {scope : Scope}
variable {param : Pattern} {argument : Expr} {replacements : Replacements}

/-- A new name equals a variable that is bound or occurs elsewhere in the
pattern. -/
def Equated (scope : Scope) (names : List Name) (equation : Expr) : Prop :=
  equation.Within fun name => scope.isBound name = true ∨ name ∈ names

theorem Equated.mono {names more : List Name} {equation : Expr}
    (equated : Equated scope names equation) (subset : names ⊆ more) :
    Equated scope more equation :=
  Expr.Within.mono equated fun _ isKnown => isKnown.imp_right fun member =>
    subset member

mutual

theorem freshenFrom_equated (pattern : Pattern) (seen : List Name)
    (supply : NameSupply) :
    (pattern.freshenFrom scope seen).Ensures supply fun result _ =>
      result.2.1 ⊆ result.1.occurrences ++ seen ∧
        ∀ equation ∈ result.2.2,
        Equated scope (result.1.occurrences ++ seen) equation := by
  cases pattern with
  | wildcard | literal value =>
      exact .pure ⟨List.subset_append_right _ _, nofun⟩
  | var name =>
      rw [freshenFrom]
      split
      · next known =>
          refine .bind (NameSupply.fresh_spec name supply) ?_
          intro target later _ _
          refine .pure
            ⟨List.subset_append_right _ _, List.forall_mem_singleton.mpr ?_⟩
          intro other member
          rcases List.mem_cons.mp member with rfl | isName
          · exact .inr List.mem_cons_self
          · rw [List.mem_singleton.mp isName]
            rcases Bool.or_eq_true_iff.mp known with bound | wasSeen
            · exact .inl bound
            · exact .inr (List.mem_cons_of_mem _ (by simpa using wasSeen))
      · exact .pure ⟨List.Subset.refl _, nofun⟩
  | tuple items =>
      refine .bind (freshenFromList_equated items seen supply) ?_
      intro result later _ found
      exact .pure found

theorem freshenFromList_equated (items : List Pattern) (seen : List Name)
    (supply : NameSupply) :
    (freshenFromList scope items seen).Ensures supply fun result _ =>
      result.2.1 ⊆ occurrencesList result.1 ++ seen ∧
        ∀ equation ∈ result.2.2,
        Equated scope (occurrencesList result.1 ++ seen) equation := by
  cases items with
  | nil => exact .pure ⟨List.Subset.refl _, nofun⟩
  | cons item items =>
      refine .bind (freshenFrom_equated item seen supply) ?_
      rintro ⟨newItem, newSeen, first⟩ later _ ⟨seenFirst, firstEquated⟩
      refine .bind (freshenFromList_equated items newSeen later) ?_
      rintro ⟨newItems, lastSeen, rest⟩ last _ ⟨seenRest, restEquated⟩
      have firstSubset : newItem.occurrences ++ seen ⊆
          occurrencesList (newItem :: newItems) ++ seen := by
        intro name member
        simp only [occurrencesList, List.mem_append] at member ⊢
        exact member.imp_left .inl
      have restSubset : occurrencesList newItems ++ newSeen ⊆
          occurrencesList (newItem :: newItems) ++ seen := by
        intro name member
        rcases List.mem_append.mp member with inItems | wasSeen
        · simp [occurrencesList, inItems]
        · exact firstSubset (seenFirst wasSeen)
      refine .pure ⟨List.Subset.trans seenRest restSubset, ?_⟩
      refine List.forall_mem_append.mpr ⟨?_, ?_⟩
      · exact fun equation member =>
          (firstEquated equation member).mono firstSubset
      · exact fun equation member =>
          (restEquated equation member).mono restSubset

end

theorem freshen_equated (pattern : Pattern) (supply : NameSupply) :
    (pattern.freshen scope).Ensures supply fun result _ =>
      ∀ equation ∈ result.2, Equated scope result.1.occurrences equation := by
  refine .bind (freshenFrom_equated pattern [] supply) ?_
  rintro ⟨newPattern, seen, equations⟩ later _ ⟨-, equated⟩
  refine .pure ?_
  intro equation member
  exact (equated equation member).mono (by simp)

mutual

/-- The components of an argument have its free names. -/
theorem components?_names {param : Pattern} {argument : Expr}
    {components : Replacements} (wildcardFree : param.toExpr?.isSome = true)
    (found : param.components? argument = some components) :
    ∀ name ∈ argument.freeVars, ∃ component ∈ components, name ∈
      component.2.freeVars := by
  cases param with
  | wildcard => cases wildcardFree
  | var name =>
      cases found
      exact fun name member => ⟨_, List.mem_singleton.mpr rfl, member⟩
  | literal value => simp [components?] at found
  | tuple params =>
      cases argument with
      | tuple arguments =>
          refine componentsList?_names ?_ found
          simpa [toExpr?] using wildcardFree
      | _ => simp [components?] at found

theorem componentsList?_names {params : List Pattern} {arguments : List Expr}
    {components : Replacements} (wildcardFree : (toExprs? params).isSome = true)
    (found : componentsList? params arguments = some components) :
    ∀ name ∈ Expr.freeVarsList arguments,
      ∃ component ∈ components, name ∈ component.2.freeVars := by
  match params, arguments with
  | [], [] => exact List.forall_mem_nil _
  | [], _ :: _ => cases found
  | _ :: _, [] => cases found
  | param :: params, argument :: arguments =>
      simp only [toExprs?] at wildcardFree
      split at wildcardFree
      · next row rows paramRow paramRows =>
          simp only [componentsList?] at found
          split at found
          · next first rest foundFirst foundRest =>
              cases found
              intro name member
              rcases List.mem_append.mp member with inFirst | inRest
              · obtain ⟨component, inComponents, occurs⟩ :=
                  components?_names (by simp [paramRow]) foundFirst name inFirst
                exact ⟨component, List.mem_append_left _ inComponents, occurs⟩
              · obtain ⟨component, inComponents, occurs⟩ :=
                  componentsList?_names (by simp [paramRows]) foundRest
                    name inRest
                exact ⟨component, List.mem_append_right _ inComponents, occurs⟩
          · cases found
      · cases wildcardFree

end

/-- Each free name of an argument is reached from a parameter variable. -/
theorem bindArgument?_reaches (wildcardFree : param.toExpr?.isSome = true)
    (bound : param.bindArgument? argument = some replacements)
    (member : name ∈ argument.freeVars) :
    ∃ old ∈ param.occurrences, replacements.Reaches old name := by
  obtain ⟨found, distinct⟩ := bindArgument?_cases bound
  obtain ⟨⟨old, component⟩, inComponents, occurs⟩ :=
    components?_names wildcardFree found name member
  refine ⟨old, ?_, ?_⟩
  · rw [← keys_of_components? found]
    exact List.mem_map_of_mem inComponents
  · rw [Replacements.Reaches, NameMap.lookup_of_mem distinct inComponents]
    exact occurs

theorem bindArgument?_reserved {supply : NameSupply}
    (reserved : argument.allNames ⊆ supply.used)
    (bound : param.bindArgument? argument = some replacements) :
    replacements.Reserved supply :=
  @bindArgument?_forall (fun expr => expr.allNames ⊆ supply.used)
    Expr.allNames_of_mem_tuple param argument replacements reserved bound

end Pattern

namespace Inversion

variable {joined : Joined} {invert : Scope → Expr → Naming Inversion}
  {supply : NameSupply} {outputs : List Name}

/-- What an inversion of a term may mention: the source of a finite generator
known names, residual conditions also its variables, and the term itself known
names if it stays. -/
def Within (known : Name → Prop) (term : Expr) : Inversion → Prop
  | generated generator residual =>
      (generator.isFinite = true → generator.source.Within known) ∧
        ∀ condition ∈ residual,
          condition.Within fun name => known name ∨
          name ∈ generator.pattern.occurrences
  | filter => term.Within known
  | failed _ => True

theorem Within.of_term {known : Name → Prop} {term other : Expr}
    {inversion : Inversion} (within : inversion.Within known other)
    (implies : other.Within known → term.Within known) :
    inversion.Within known term := by
  cases inversion with
  | generated generator residual => exact within
  | filter => exact implies within
  | failed obstacle => trivial

/-- Inversion of clauses with reserved names mentions known names only. -/
def KeepsKnown (program : Program) (invert : Scope → Expr → Naming Inversion) :
    Prop :=
  ∀ scope term supply, program.names ⊆ supply.used →
    term.allNames ⊆ supply.used →
    (invert scope term).Ensures supply fun inversion _ =>
      inversion.Within (scope.Knows program) term

variable {program : Program} {scope : Scope}

theorem within_of_equated {pattern : Pattern} {residual : List Expr}
    (equated : ∀ equation ∈ residual,
      Pattern.Equated scope pattern.occurrences equation) :
    ∀ condition ∈ residual,
      condition.Within fun name => scope.Knows program name ∨
      name ∈ pattern.occurrences := by
  intro condition member
  refine Expr.Within.mono (equated condition member) ?_
  rintro name (bound | occurs)
  · exact .inl (.inl bound)
  · exact .inr occurs

theorem ofMember_known (term left right : Expr) (supply : NameSupply) :
    (ofMember program scope left right).Ensures supply fun inversion _ =>
      inversion.Within (scope.Knows program) term := by
  rw [ofMember]
  split
  · exact .pure trivial
  · next bound =>
      split
      · exact .pure trivial
      · next pattern taken =>
          refine .bind (pattern.freshen_equated supply) ?_
          intro result later _ equated
          refine .pure
            ⟨fun _ => Scope.within_of_locals ?_, within_of_equated equated⟩
          rw [List.all_eq_true]
          intro name member
          simpa using List.find?_eq_none.mp bound name member

theorem ofPattern_known (term : Expr) (pattern : Pattern) {value : Expr}
    (within : value.Within (scope.Knows program)) (supply : NameSupply) :
    (ofPattern scope pattern value).Ensures supply fun inversion _ =>
      inversion.Within (scope.Knows program) term := by
  refine .bind (pattern.freshen_equated supply) ?_
  intro result later _ equated
  refine .pure ⟨fun _ => ?_, within_of_equated equated⟩
  intro name member
  refine within name ?_
  simpa [Generator.singleton, Expr.freeVars, Expr.freeVarsList] using member

theorem ofEquality_known (term left right : Expr) (supply : NameSupply) :
    (ofEquality program scope term left right).Ensures supply fun inversion _ =>
      inversion.Within (scope.Knows program) term := by
  rw [ofEquality]
  split
  · next pattern found =>
      exact ofPattern_known term pattern
        (Scope.within_of_locals (of_equalityPattern? found).1) supply
  · split
    · next pattern found =>
        exact ofPattern_known term pattern
          (Scope.within_of_locals (of_equalityPattern? found).1) supply
    · exact .pure trivial

theorem ofOpaqueCall_known (term : Expr) (function : Name) (argument : Expr)
    (supply : NameSupply) :
    (ofOpaqueCall scope term function argument).Ensures supply
      fun inversion _ => inversion.Within (scope.Knows program) term := by
  rw [ofOpaqueCall]
  split
  · exact .pure trivial
  · next pattern taken =>
      refine .bind (pattern.freshen_equated supply) ?_
      rintro ⟨newPattern, residual⟩ later _ equated
      dsimp only
      split
      -- The extent of a pattern is never finite.
      · exact .pure ⟨fun finite => absurd (of_decide_eq_true finite) nofun,
          within_of_equated equated⟩
      · exact .pure trivial

/-- What clauses have produced since some scope. -/
structure Joined.Within (program : Program) (scope : Scope) (joined : Joined) :
    Prop where
  bound : ∀ name, joined.scope.isBound name = true ↔
    scope.isBound name = true ∨
    name ∈ Scan.bound (joined.parts.map Generator.scan)
  parts : (∀ part ∈ joined.parts, part.isFinite = true) →
    Scan.areWithin (scope.Knows program) (joined.parts.map Generator.scan)
  residual : ∀ condition ∈ joined.residual,
    condition.Within (joined.scope.Knows program)

theorem Joined.Within.empty : Joined.Within program scope ⟨scope, [], []⟩ :=
  ⟨fun _ => by simp [Scan.bound], fun _ => trivial, nofun⟩

theorem Joined.Within.knows (within : joined.Within program scope)
    (isKnown : joined.scope.Knows program name) :
    scope.Knows program name ∨
      name ∈ Scan.bound (joined.parts.map Generator.scan) := by
  rcases isKnown with isBound | provided
  · exact ((within.bound name).mp isBound).imp_left .inl
  · exact .inl (.inr provided)

theorem Joined.Within.generated {joined : Joined}
    (within : joined.Within program scope) {term : Expr} {generator : Generator}
    {residual : List Expr}
    (new : (Inversion.generated generator residual).Within
      (joined.scope.Knows program) term) :
    Joined.Within program scope
      ⟨joined.scope.produce generator, joined.parts ++ [generator],
        joined.residual ++ residual⟩ := by
  refine ⟨?_, ?_, ?_⟩
  · intro name
    have together :
      Scan.bound ((joined.parts ++ [generator]).map Generator.scan) =
        Scan.bound (joined.parts.map Generator.scan) ++
          generator.pattern.occurrences := by
      simp [Scan.bound, Generator.scan]
    rw [together, List.mem_append, ← or_assoc, ← within.bound,
      Scope.isBound_produce_iff]
  · intro finite
    obtain ⟨before, last⟩ := List.forall_mem_append.mp finite
    rw [List.map_append]
    refine Scan.areWithin_append (within.parts before) ⟨?_, trivial⟩
    intro name member
    exact within.knows (new.1 (last generator List.mem_cons_self) name member)
  · refine List.forall_mem_append.mpr ⟨?_, ?_⟩
    · intro condition member
      exact (within.residual condition member).mono fun name isKnown =>
        Scope.knows_produce.mpr (.inl isKnown)
    · intro condition member
      exact (new.2 condition member).mono fun name isKnown =>
        Scope.knows_produce.mpr isKnown

theorem Joined.Within.filtered (within : joined.Within program scope)
    {clause : Expr} (new : clause.Within (joined.scope.Knows program)) :
    Joined.Within program scope
      ⟨joined.scope, joined.parts, joined.residual ++ [clause]⟩ :=
  ⟨within.bound, within.parts,
    List.forall_mem_append.mpr ⟨within.residual, fun condition member => by
      rwa [List.mem_singleton.mp member]⟩⟩

theorem joinClauses_known (inverts : KeepsKnown program invert)
    {clauses : List Expr} (within : joined.Within program scope)
    (declared : program.names ⊆ supply.used)
    (reserved : ∀ clause ∈ clauses, clause.allNames ⊆ supply.used) :
    (joinClauses invert clauses joined).Ensures supply fun result _ =>
      ∀ joined, result = .ok joined → joined.Within program scope := by
  induction clauses generalizing joined supply with
  | nil =>
      refine .pure ?_
      rintro other ⟨⟩
      exact within
  | cons clause clauses induction =>
      rw [List.forall_mem_cons] at reserved
      refine .bind (inverts joined.scope clause supply declared reserved.1) ?_
      intro inversion later grown found
      have restReserved : ∀ other ∈ clauses, other.allNames ⊆ later.used :=
        fun other member => List.Subset.trans (reserved.2 other member) grown
      have stillDeclared := List.Subset.trans declared grown
      cases inversion with
      | generated generator residual =>
          exact induction (within.generated found) stillDeclared restReserved
      | filter =>
          exact induction (within.filtered found) stillDeclared restReserved
      | failed obstacle => exact .pure nofun

theorem ofJoined_known (term : Expr) (within : joined.Within program scope)
    (nonempty : outputs ≠ [])
    (unbound : ∀ name ∈ outputs, scope.isBound name = false) :
    (ofJoined outputs joined).Within (scope.Knows program) term := by
  rcases ofJoined_cases outputs joined with
    ⟨obstacle, failed⟩ |
    ⟨bound, ⟨none, filters⟩ | ⟨only, parts, -, keeps⟩ | ⟨-, joins⟩⟩
  · rw [failed]
    trivial
  · -- Without parts nothing new is bound, but there is an output.
    obtain ⟨name, member⟩ := List.exists_mem_of_ne_nil outputs nonempty
    have wasBound := (within.bound name).mp (bound name member)
    rw [unbound name member, none] at wasBound
    simp [Scan.bound] at wasBound
  · rw [keeps]
    refine ⟨?_, ?_⟩
    · intro finite
      have scans := within.parts (by simpa [parts] using finite)
      rw [parts] at scans
      exact scans.1
    · intro condition member
      refine (within.residual condition member).mono ?_
      intro name isKnown
      simpa [parts, Scan.bound, Generator.scan] using within.knows isKnown
  · rw [joins]
    refine ⟨?_, by simp⟩
    intro finite
    refine Query.within_filtered
      (within.parts (Generator.isFinite_join.mp finite)) ?_ ?_
    · intro condition member
      exact (within.residual condition member).mono fun name isKnown =>
        within.knows isKnown
    · intro name member
      rw [Expr.freeVars_row] at member
      exact within.knows (.inl (bound name member))

theorem ofBody_known (inverts : KeepsKnown program invert) {body : Expr}
    (declared : program.names ⊆ supply.used)
    (reserved : body.allNames ⊆ supply.used) (nonempty : outputs ≠ [])
    (unbound : ∀ name ∈ outputs, scope.isBound name = false) :
    (ofBody program invert scope body outputs).Ensures supply fun inversion _ =>
      inversion.Within (scope.Knows program) body := by
  refine ofBody_ensures (fun _ _ => trivial)
    ((Scope.flatten_reserved reserved).and (Scope.flatten_single reserved))
    ?_ ?_
  · rintro clause later grown ⟨clauseReserved, single⟩
    refine (inverts scope clause later (List.Subset.trans declared grown)
      (clauseReserved clause List.mem_cons_self)).mono ?_
    intro inversion last _ within
    exact within.of_term fun clauseWithin name member =>
      clauseWithin name (single clause rfl member)
  · rintro clauses later grown ⟨clausesReserved, -⟩
    refine (joinClauses_known inverts .empty (List.Subset.trans declared grown)
      clausesReserved).mono ?_
    intro result last _ joinedWithin joined equality
    exact ofJoined_known body (joinedWithin joined equality) nonempty unbound

/-- Unfolding a body with reserved names mentions known names only. -/
def UnfoldsKnown (program : Program) (unfold : Unfolder) : Prop :=
  ∀ function scope body outputs supply, program.names ⊆ supply.used →
    body.allNames ⊆ supply.used → outputs ≠ [] →
    (∀ name ∈ outputs, scope.isBound name = false) →
    (unfold function scope body outputs).Ensures supply fun inversion _ =>
      inversion.Within (scope.Knows program) body

variable {unfold : Unfolder} {active : List Name}

theorem ofCall_known (uses : program.UsesParameters)
    (unfolds : UnfoldsKnown program unfold) {argument : Expr} {function : Name}
    (declared : program.names ⊆ supply.used)
    (reserved : argument.allNames ⊆ supply.used) (nonempty : outputs ≠ [])
    (unbound : ∀ name ∈ outputs, scope.isBound name = false) :
    (ofCall program unfold active scope (.apply (.var function) argument)
      function argument outputs).Ensures supply fun inversion _ =>
        inversion.Within (scope.Knows program)
          (.apply (.var function) argument) := by
  rw [ofCall]
  split
  · exact .pure trivial
  · split
    · next name param body decl =>
        split
        · exact .pure trivial
        · split
          · exact .pure trivial
          · next replacements bound =>
              have isDeclared := (Program.decl?_eq_some decl).1
              obtain ⟨wildcardFree, used⟩ := uses _ _ _ isDeclared
              have bodyReserved :=
                List.Subset.trans (Program.names_of_function isDeclared)
                  declared
              refine .bind ((Expr.substitute_reserved bodyReserved
                (Pattern.bindArgument?_reserved reserved bound)).and
                (body.substitute_carries replacements supply)) ?_
              rintro newBody later grown ⟨newReserved, carries⟩
              refine (unfolds function scope newBody outputs later
                (List.Subset.trans declared grown) newReserved nonempty
                unbound).mono ?_
              intro inversion last _ within
              refine within.of_term ?_
              intro bodyWithin other member
              rcases List.mem_cons.mp member with rfl | inArgument
              · exact .inr (.inl (by simp [decl]))
              · obtain ⟨old, isParam, reaches⟩ :=
                  Pattern.bindArgument?_reaches wildcardFree bound inArgument
                exact bodyWithin other (carries.all other
                  (reserved (Expr.freeVars_subset_allNames _ inArgument)) old
                  (used isParam) reaches)
    · exact ofOpaqueCall_known _ function argument supply

theorem ofTerm_known (uses : program.UsesParameters)
    (unfolds : UnfoldsKnown program unfold) (nesting : Nat) :
    KeepsKnown program (ofTerm program unfold active nesting) := by
  induction nesting with
  | zero =>
      intro scope term supply _ _
      exact .pure trivial
  | succ nesting induction =>
      intro scope term supply declared reserved
      rw [ofTerm]
      split
      · next bound => exact .pure (Scope.within_of_locals bound)
      · next notBound =>
          have nonempty := Scope.unboundInOrder_ne_nil (by simpa using notBound)
          have unbound :
            ∀ name ∈ scope.unboundInOrder term (scope.locals program term),
              scope.isBound name = false :=
                fun name => Scope.isBound_of_mem_unboundInOrder
          split
          · next left right => exact ofMember_known _ left right supply
          · next left right => exact ofEquality_known _ left right supply
          · exact ofBody_known induction declared reserved nonempty unbound
          · exact ofBody_known induction declared reserved nonempty unbound
          · next function argument =>
              exact ofCall_known uses unfolds declared
                (List.append_subset.mp reserved).2 nonempty unbound
          · exact .pure trivial

theorem within_known (uses : program.UsesParameters) (unfoldings : Nat)
    (active : List Name) :
    KeepsKnown program (within program unfoldings active) := by
  induction unfoldings generalizing active with
  | zero =>
      intro scope term supply
      refine ofTerm_known uses ?_ term.size scope term supply
      intro function scope body outputs supply _ _ _ _
      exact .pure trivial
  | succ unfoldings induction =>
      intro scope term supply
      refine ofTerm_known uses ?_ term.size scope term supply
      intro function scope body outputs supply declared reserved
        nonempty unbound
      exact ofBody_known (induction (function :: active)) declared reserved
        nonempty unbound

end Inversion

end RecursiveQuery
