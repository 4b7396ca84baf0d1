import RecursiveQuery.Inversion.Base
import RecursiveQuery.Proofs.Names
import RecursiveQuery.Proofs.NamingRuns

/-!
# Cases of inversions

What is known when an equality, joined clauses or a whole condition is inverted.
-/

namespace RecursiveQuery

theorem Expr.mem_appearanceOrder {expr : Expr} {keep : List Name}
    {name : Name} : name ∈ expr.appearanceOrder keep ↔ name ∈ keep := by
  simp only [appearanceOrder, List.mem_append, List.mem_eraseDups,
    List.mem_filter, List.contains_iff_mem, Name.mem_outside,
    Name.mem_ascending]
  constructor
  · rintro (⟨-, kept⟩ | ⟨kept, -⟩)
    · exact kept
    · exact kept
  · intro kept
    by_cases mentioned : name ∈ expr.mentions
    · exact .inl ⟨mentioned, kept⟩
    · exact .inr ⟨kept, fun both => mentioned both.1⟩

theorem Expr.nodup_appearanceOrder (expr : Expr) (keep : List Name) :
    (expr.appearanceOrder keep).Nodup := by
  apply List.nodup_append.mpr
  refine ⟨nodup_eraseDups _, (Name.nodup_ascending keep).filter _, ?_⟩
  intro first inFirst second inSecond equal
  exact (Name.mem_outside.mp inSecond).2 (equal ▸ inFirst)

namespace Scope

variable {scope : Scope} {program : Program} {term : Expr}

theorem isBound_of_mem_unboundInOrder {locals : List Name} {name : Name}
    (member : name ∈ scope.unboundInOrder term locals) :
    scope.isBound name = false := by
  have kept := Expr.mem_appearanceOrder.mp member
  simpa using (List.mem_filter.mp kept).2

theorem unboundInOrder_ne_nil
    (unbound : (scope.locals program term).all scope.isBound = false) :
    scope.unboundInOrder term (scope.locals program term) ≠ [] := by
  obtain ⟨name, isLocal, free⟩ := List.all_eq_false.mp unbound
  have kept : name ∈ (scope.locals program term).filter fun name =>
    !scope.isBound name :=
    List.mem_filter.mpr ⟨isLocal, by simpa using free⟩
  exact List.ne_nil_of_mem (Expr.mem_appearanceOrder.mpr kept)

end Scope

namespace Pattern

theorem bindArgument?_cases {param : Pattern} {argument : Expr}
    {replacements : Replacements}
    (bound : param.bindArgument? argument = some replacements) :
    param.components? argument = some replacements ∧
      (NameMap.keys replacements).Nodup := by
  rw [bindArgument?] at bound
  split at bound
  · next components found =>
      split at bound
      · next distinct =>
          cases bound
          exact ⟨found, distinct⟩
      · cases bound
  · cases bound

mutual

/-- The replacements of a call replace all variables of the parameter. -/
theorem keys_of_components? {param : Pattern} {argument : Expr}
    {components : Replacements}
    (found : param.components? argument = some components) :
    NameMap.keys components = param.occurrences := by
  cases param with
  | wildcard | var name =>
      cases found
      rfl
  | literal value => simp [components?] at found
  | tuple params =>
      cases argument with
      | tuple arguments => exact keys_of_componentsList? found
      | _ => simp [components?] at found

theorem keys_of_componentsList? {params : List Pattern} {arguments : List Expr}
    {components : Replacements}
    (found : componentsList? params arguments = some components) :
    NameMap.keys components = occurrencesList params := by
  match params, arguments with
  | [], [] =>
      cases found
      rfl
  | [], _ :: _ => cases found
  | _ :: _, [] => cases found
  | param :: params, argument :: arguments =>
      simp only [componentsList?] at found
      split at found
      · next first rest foundFirst foundRest =>
          cases found
          rw [occurrencesList, ← keys_of_components? foundFirst,
            ← keys_of_componentsList? foundRest]
          exact List.map_append
      · cases found

end

section Components

variable {holds : Expr → Prop}

mutual

/-- What an argument passes on to its components holds of all replacements. -/
theorem components?_forall
    (items : ∀ items, holds (.tuple items) → ∀ item ∈ items, holds item)
    {param : Pattern} {argument : Expr} {components : Replacements}
    (given : holds argument)
    (found : param.components? argument = some components) :
    ∀ component ∈ components, holds component.2 := by
  cases param with
  | wildcard =>
      cases found
      simp
  | var name =>
      cases found
      simpa using given
  | literal value => simp [components?] at found
  | tuple params =>
      cases argument with
      | tuple arguments =>
          exact componentsList?_forall items (items arguments given) found
      | _ => simp [components?] at found

theorem componentsList?_forall
    (items : ∀ items, holds (.tuple items) → ∀ item ∈ items, holds item)
    {params : List Pattern} {arguments : List Expr} {components : Replacements}
    (given : ∀ argument ∈ arguments, holds argument)
    (found : componentsList? params arguments = some components) :
    ∀ component ∈ components, holds component.2 := by
  match params, arguments with
  | [], [] =>
      cases found
      simp
  | [], _ :: _ => cases found
  | _ :: _, [] => cases found
  | param :: params, argument :: arguments =>
      simp only [List.forall_mem_cons] at given
      simp only [componentsList?] at found
      split at found
      · next first rest foundFirst foundRest =>
          cases found
          exact List.forall_mem_append.mpr
            ⟨components?_forall items given.1 foundFirst,
            componentsList?_forall items given.2 foundRest⟩
      · cases found

end

theorem bindArgument?_forall
    (items : ∀ items, holds (.tuple items) → ∀ item ∈ items, holds item)
    {param : Pattern} {argument : Expr} {replacements : Replacements}
    (given : holds argument)
    (bound : param.bindArgument? argument = some replacements) :
    ∀ replacement ∈ replacements, holds replacement.2 :=
  components?_forall items given (bindArgument?_cases bound).1

end Components

end Pattern

namespace Inversion

variable {program : Program} {scope : Scope}

theorem of_equalityPattern? {side value : Expr} {pattern : Pattern}
    (found : equalityPattern? program scope side value = some pattern) :
    (scope.locals program value).all scope.isBound = true ∧
    side.toPattern? = some pattern := by
  obtain ⟨_, computable, rest⟩ := Option.bind_eq_some_iff.mp found
  obtain ⟨taken, tookSide, rest⟩ := Option.bind_eq_some_iff.mp rest
  obtain ⟨_, _, equality⟩ := Option.bind_eq_some_iff.mp rest
  cases equality
  refine ⟨?_, tookSide⟩
  by_contra notAll
  rw [guard, if_neg notAll] at computable
  cases computable

/-- Joined clauses that bind all outputs filter if nothing was generated; a
single generator of exactly the outputs stays as it is, and others are
joined. -/
theorem ofJoined_cases (outputs : List Name) (joined : Joined) :
    (∃ obstacle, ofJoined outputs joined = .failed obstacle) ∨
    ((∀ name ∈ outputs, joined.scope.isBound name = true) ∧
      ((joined.parts = [] ∧ ofJoined outputs joined = .filter) ∨
        (∃ only, joined.parts = [only] ∧ only.pattern.vars = outputs ∧
          ofJoined outputs joined = .generated only joined.residual) ∨
        (joined.parts ≠ [] ∧ ofJoined outputs joined =
          .generated (.join joined.parts joined.residual outputs) []))) := by
  cases missing : outputs.find? fun name => !joined.scope.isBound name with
  | some name =>
      refine .inl ⟨.nothingBinds name, ?_⟩
      rw [ofJoined, missing]
  | none =>
      refine .inr ⟨?_, ?_⟩
      · intro name member
        simpa using List.find?_eq_none.mp missing name member
      · rw [ofJoined, missing]
        obtain ⟨joinedScope, parts, residual⟩ := joined
        rcases parts with _ | ⟨only, _ | ⟨second, parts⟩⟩
        · exact .inl ⟨rfl, rfl⟩
        · by_cases same : only.pattern.vars = outputs
          · exact .inr (.inl ⟨only, rfl, same, if_pos same⟩)
          · exact .inr (.inr ⟨List.cons_ne_nil _ _, if_neg same⟩)
        · exact .inr (.inr ⟨List.cons_ne_nil _ _, rfl⟩)

/-- A property of inversions that holds of a condition if it holds of its only
clause and of its joined clauses. -/
theorem ofBody_ensures {invert : Scope → Expr → Naming Inversion} {body : Expr}
    {outputs : List Name} {supply : NameSupply}
    {flat : List Expr → NameSupply → Prop}
    {holds : Inversion → NameSupply → Prop}
    (failed : ∀ obstacle later, holds (.failed obstacle) later)
    (flattens : (scope.flatten program body).Ensures supply flat)
    (single : ∀ clause later, supply.used ⊆ later.used → flat [clause] later →
      (invert scope clause).Ensures later holds)
    (joins : ∀ clauses later, supply.used ⊆ later.used → flat clauses later →
      (joinClauses invert clauses ⟨scope, [], []⟩).Ensures later
        fun result last =>
        ∀ joined, result = .ok joined → holds (ofJoined outputs joined) last) :
    (ofBody program invert scope body outputs).Ensures supply holds := by
  have finishes {finish : Except Obstacle Joined → Naming Inversion}
      (whenFailed : ∀ obstacle, finish (.error obstacle) =
        return .failed obstacle)
      (whenJoined : ∀ joined, finish (.ok joined) =
        return ofJoined outputs joined)
      {clauses : List Expr} {later : NameSupply}
        (grown : supply.used ⊆ later.used)
      (found : flat clauses later) :
      Naming.Ensures (joinClauses invert clauses ⟨scope, [], []⟩ >>= finish)
        later holds := by
    refine .bind (joins clauses later grown found) ?_
    intro result last _ joinedHolds
    cases result with
    | error obstacle =>
        rw [whenFailed]
        exact .pure (failed obstacle last)
    | ok joined =>
        rw [whenJoined]
        exact .pure (joinedHolds joined rfl)
  rw [ofBody]
  split
  · exact .pure (failed _ _)
  · refine .bind flattens ?_
    intro clauses later grown found
    rcases clauses with _ | ⟨clause, _ | ⟨second, rest⟩⟩
    · exact finishes (fun _ => rfl) (fun _ => rfl) grown found
    · dsimp only
      split
      · exact .pure (failed _ _)
      · exact single clause later grown found
    · exact finishes (fun _ => rfl) (fun _ => rfl) grown found

end Inversion

end RecursiveQuery
