import RecursiveQuery.Proofs.ChosenValues
import RecursiveQuery.Proofs.StepScans

/-!
# Rows of steps

The rows of a step are the rows of goals under exactly those values of its
variables for which all its clauses hold, where the last increment stands for
the recursive predicate.
-/

namespace RecursiveQuery

variable {env : Env} {session : Session} {kind : CollectionKind}

namespace Pattern

mutual

/-- A renamed pattern is read where the new names have the values of the old
ones. -/
theorem readIn_rename {change : Name → Name} {env other : Env}
    {pattern : Pattern} {value : Value}
    (same : ∀ name ∈ pattern.occurrences, other.lookup (change name) =
      env.lookup name) :
    (pattern.rename change).ReadIn other value ↔ pattern.ReadIn env value := by
  cases pattern with
  | wildcard => exact Iff.rfl
  | var name =>
      have found := same name List.mem_cons_self
      rw [rename, ReadIn, ReadIn, found]
  | literal expected => exact Iff.rfl
  | tuple patterns =>
      cases value with
      | tuple items => exact readEachIn_rename same
      | _ => exact Iff.rfl

theorem readEachIn_rename {change : Name → Name} {env other : Env}
    {patterns : List Pattern} {items : List Value}
    (same : ∀ name ∈ occurrencesList patterns, other.lookup (change name) =
      env.lookup name) :
    ReadEachIn other (renameList change patterns) items ↔
      ReadEachIn env patterns items := by
  match patterns, items with
  | [], [] => exact Iff.rfl
  | [], _ :: _ => exact Iff.rfl
  | _ :: _, [] => exact Iff.rfl
  | pattern :: patterns, item :: items =>
      obtain ⟨first, rest⟩ := List.forall_mem_append.mp same
      exact and_congr (readIn_rename first) (readEachIn_rename rest)

end

end Pattern

/-- A row of variables that have values has a value. -/
theorem Expr.exists_valueIn_row {names : List Name}
    (given : ∀ name ∈ names, ∃ value, env.lookup name = some value) :
    ∃ value, (row names).valueIn env = some value := by
  have each {names : List Name}
    (given : ∀ name ∈ names, ∃ value, env.lookup name = some value) :
      ∃ values, valuesIn env (names.map .var) = some values := by
    induction names with
    | nil => exact ⟨[], rfl⟩
    | cons name names induction =>
        rw [List.forall_mem_cons] at given
        obtain ⟨value, found⟩ := given.1
        obtain ⟨values, foundRest⟩ := induction given.2
        refine ⟨value :: values, ?_⟩
        rw [List.map_cons, valuesIn, valueIn, found, foundRest]
  rcases names with _ | ⟨first, _ | ⟨second, rest⟩⟩
  · exact ⟨_, rfl⟩
  · exact given first List.mem_cons_self
  · obtain ⟨values, found⟩ := each given
    refine ⟨.tuple values, ?_⟩
    exact Option.map_eq_some_iff.mpr ⟨values, found, rfl⟩

/-- A name yields rows without bags and functions if its rows are such. -/
theorem Session.yieldsPlainly_var {name : Name} {rows : List Value}
    (found : session.lookup env name = .ok (.collection kind rows))
    (plain : ∀ row ∈ rows, row.toExpr?.isSome = true) :
    session.YieldsPlainly env (.var name) := by
  intro inner extended site otherKind others _ evaluated
  have looked : session.lookup inner name =
    .ok (.collection otherKind others) := evaluated
  rcases extended name with same | ⟨value, isValue, isPlain⟩
  · rw [lookup_congr same, found] at looked
    cases looked
    exact plain
  · rw [lookup_of_env isValue] at looked
    cases looked
    cases otherKind with
    | bag => cases isPlain
    | list =>
        rw [Value.toExpr?, Option.isSome_map] at isPlain
        exact Value.plain_of_mem isPlain

/-- An equation between variables makes a value without bags and functions the
same. -/
theorem Session.eq_of_held {name other : Name} {value plain : Value}
    (held : session.Held env (.equals (.var name) (.var other)))
    (found : env.lookup name = some value)
    (foundOther : env.lookup other = some plain)
    (isPlain : plain.toExpr?.isSome = true) : value = plain := by
  obtain ⟨site, _, evaluated⟩ := held
  have compared : session.evalIn site env (.equals (.var name) (.var other)) =
      .ok (.bool (value.same plain)) :=
    Expr.eval_equals (lookup_of_env found) (lookup_of_env foundOther)
  have alike : value.same plain = true :=
    Value.bool.inj (Except.ok.inj (compared.symm.trans evaluated))
  exact Value.eq_of_alike isPlain alike

/-- Each alias can be given the value of its original. -/
theorem Env.exists_aliased {aliases : List (Name × Name)}
    (distinct : (aliases.map Prod.snd).Nodup)
    (given : ∀ pair ∈ aliases, ∃ value, env.lookup pair.1 = some value) :
    ∃ full : Env,
      (∀ name ∉ aliases.map Prod.snd, full.lookup name = env.lookup name) ∧
      ∀ pair ∈ aliases, full.lookup pair.2 = env.lookup pair.1 := by
  let originals : NameMap Name := aliases.map Prod.swap
  have keys : originals.keys = aliases.map Prod.snd := by
    rw [NameMap.keys, List.map_map]
    rfl
  let values : Name → Option Value := fun name =>
    (originals.lookup name).bind fun original => env.lookup original
  have picked (name : Name) : (pick originals.keys id values).lookup name =
      if name ∈ originals.keys then values name else none :=
    @lookup_pick originals.keys id values name fun _ _ equal => equal
  refine ⟨pick originals.keys id values ++ env, ?_, ?_⟩
  · intro name absent
    rw [List.lookup_append, picked, if_neg (keys ▸ absent), Option.none_or]
  · intro pair isPair
    obtain ⟨value, found⟩ := given pair isPair
    have isKey : pair.2 ∈ originals.keys := keys ▸ List.mem_map_of_mem isPair
    have isOriginal : originals.lookup pair.2 = some pair.1 :=
      NameMap.lookup_of_mem (keys ▸ distinct)
        (List.mem_map.mpr ⟨pair, isPair, rfl⟩)
    have isValue : values pair.2 = some value := by
      dsimp only [values]
      rw [isOriginal, Option.bind_some, found]
    rw [List.lookup_append, picked, if_pos isKey, isValue, Option.some_or,
      found]

namespace StepClause

/-- A clause holds for the values of an environment: the source of a scan has
the row that the variables build and its conditions are true, a filter is true,
and the argument of a recursive call is a row of the increment. -/
def HoldsIn (evaluate : Env → Expr → Outcome Value) (increment : List Value)
    (env : Env) : StepClause → Prop
  | scan generator residual =>
      (∃ kind rows, evaluate env generator.source =
        .ok (.collection kind rows) ∧
        ∃ row ∈ rows, generator.pattern.ReadIn env row) ∧
        ∀ condition ∈ residual, evaluate env condition = .ok (.bool true)
  | filter condition => evaluate env condition = .ok (.bool true)
  | recursive _ argument => ∃ row ∈ increment, argument.ReadIn env row

namespace AreRealized

variable {increment : Name} {aliases : List (Name × Name)}
  {clauses : List StepClause}
  {parts : List Generator} {conditions : List Expr}

theorem of_clause
    (realized : AreRealized increment aliases clauses parts conditions)
    {clause : StepClause} (isClause : clause ∈ clauses) :
    ∃ own tests, Realizes increment aliases clause own tests ∧ own ⊆ parts ∧
      tests ⊆ conditions := by
  induction realized with
  | nil => cases isClause
  | @cons first clauses own parts tests conditions realizes rest induction =>
      rcases List.mem_cons.mp isClause with isFirst | isLater
      · rw [isFirst]
        exact ⟨own, tests, realizes, List.subset_append_left _ _,
          List.subset_append_left _ _⟩
      · obtain ⟨others, otherTests, otherRealizes, subset, subsetTests⟩ :=
          induction isLater
        exact ⟨others, otherTests, otherRealizes,
          List.subset_append_of_subset_right _ subset,
          List.subset_append_of_subset_right _ subsetTests⟩

theorem of_part
    (realized : AreRealized increment aliases clauses parts conditions)
    {part : Generator} (isPart : part ∈ parts) :
    ∃ clause ∈ clauses, ∃ own tests,
      Realizes increment aliases clause own tests ∧ part ∈ own := by
  induction realized with
  | nil => cases isPart
  | @cons first clauses own parts tests conditions realizes rest induction =>
      rcases List.mem_append.mp isPart with isOwn | isLater
      · exact ⟨first, List.mem_cons_self, own, tests, realizes, isOwn⟩
      · obtain ⟨clause, isClause, found⟩ := induction isLater
        exact ⟨clause, List.mem_cons_of_mem _ isClause, found⟩

theorem of_condition
    (realized : AreRealized increment aliases clauses parts conditions)
    {condition : Expr} (isCondition : condition ∈ conditions) :
    ∃ clause ∈ clauses, ∃ own tests,
      Realizes increment aliases clause own tests ∧ condition ∈ tests := by
  induction realized with
  | nil => cases isCondition
  | @cons first clauses own parts tests conditions realizes rest induction =>
      rcases List.mem_append.mp isCondition with isTest | isLater
      · exact ⟨first, List.mem_cons_self, own, tests, realizes, isTest⟩
      · obtain ⟨clause, isClause, found⟩ := induction isLater
        exact ⟨clause, List.mem_cons_of_mem _ isClause, found⟩

end AreRealized

/-- A realization whose sources have rows without bags and functions, and whose
increment is given. -/
structure Runs (session : Session) (env : Env) (increment : Name)
    (new : List Value) (names : List Name) (clauses : List StepClause)
    (parts : List Generator) (conditions : List Expr)
    (aliases : List (Name × Name)) : Prop extends
    Realization increment names clauses parts conditions aliases where
  plain : ∀ part ∈ parts, session.YieldsPlainly env part.source
  supplied : ∃ kind, env.lookup increment = some (.collection kind new)

/-- Scans have the sources of their clauses, and the increment in place of a
recursive call. -/
theorem Realization.runs {increment : Name} {new : List Value}
    {names : List Name} {clauses : List StepClause} {parts : List Generator}
    {conditions : List Expr} {aliases : List (Name × Name)}
    (realization : Realization increment names clauses parts conditions aliases)
    (plain : ∀ generator residual, .scan generator residual ∈ clauses →
      session.YieldsPlainly env generator.source)
    (supplied : env.lookup increment = some (.collection kind new))
    (newPlain : ∀ row ∈ new, row.toExpr?.isSome = true) :
    Runs session env increment new names clauses parts conditions aliases := by
  refine ⟨realization, ?_, kind, supplied⟩
  intro part isPart
  obtain ⟨clause, isClause, own, tests, realizes, isOwn⟩ :=
    realization.realized.of_part isPart
  cases realizes with
  | scan generator residual =>
      rw [List.mem_singleton.mp isOwn]
      exact plain generator _ isClause
  | filter condition => cases isOwn
  | recursive function argument change equations changed areEquations =>
      rw [List.mem_singleton.mp isOwn]
      exact Session.yieldsPlainly_var (Session.lookup_of_env supplied) newPlain

namespace Runs

variable {session : Session} {env last given full : Env} {increment : Name}
  {new : List Value}
  {names : List Name} {clauses : List StepClause} {parts : List Generator}
  {conditions : List Expr} {aliases : List (Name × Name)} {site check : Site}

section Sound

variable (runs :
  Runs session env increment new names clauses parts conditions aliases)
  (uniform : session.Uniform) (free : env.IsFunctionFree)
  (reaches : Generator.Reaches session parts env last)
  (held : ∀ condition ∈ conditions, session.Held last condition)
  (same : ∀ name ∈ names, given.lookup name = last.lookup name)
  (startedCheck : Session.Started check)

include runs uniform free reaches held same startedCheck

/-- Conditions that were passed are true. -/
theorem evalIn_of_held {condition : Expr} (isCondition : condition ∈ conditions)
    (among : condition.freeVars ⊆ names) :
    session.evalIn check given condition = .ok (.bool true) := by
  have lastFree :=
    (reaches.extendsPlainly runs.plain (.refl env)).isFunctionFree free
  obtain ⟨place, startedPlace, isTrue⟩ := held condition isCondition
  apply Session.evalIn_bool uniform startedPlace startedCheck _ isTrue
  exact ⟨fun name member => same name (among member),
    fun name _ => lastFree name⟩

/-- Where the scans end and all conditions are passed, all clauses hold. -/
theorem holdsIn_of_reaches : ∀ clause ∈ clauses,
    clause.HoldsIn (session.evalIn check) new given := by
  intro clause isClause
  have extended := reaches.extendsPlainly runs.plain (.refl env)
  have clauseAmong := runs.among clause isClause
  have rows := reaches.exists_row runs.separate uniform free runs.plain
    (.refl env) startedCheck
  obtain ⟨own, tests, realizes, isOwn, areTests⟩ :=
    runs.realized.of_clause isClause
  cases realizes with
  | scan generator residual =>
      obtain ⟨patternAmong, sourceAmong, residualAmong⟩ := clauseAmong
      have isPart := isOwn List.mem_cons_self
      obtain ⟨kind, found, evaluated, row, member, read⟩ :=
        rows generator isPart
      refine ⟨⟨kind, found, ?_, row, member, ?_⟩, ?_⟩
      · apply (runs.plain generator isPart).rows_eq uniform free extended _
          startedCheck startedCheck evaluated
        intro name inSource
        exact same name (sourceAmong inSource)
      · apply read.congr
        intro name occurs
        exact same name (patternAmong occurs)
      · intro condition isResidual
        exact runs.evalIn_of_held uniform free reaches held same startedCheck
          (areTests isResidual) (residualAmong condition isResidual)
  | filter condition =>
      exact runs.evalIn_of_held uniform free reaches held same startedCheck
        (areTests List.mem_cons_self) clauseAmong
  | recursive function argument change equations changed areEquations =>
      obtain ⟨kind, found, evaluated, row, member, read⟩ :=
        rows _ (isOwn List.mem_cons_self)
      obtain ⟨newKind, lookedUp⟩ := runs.supplied
      have isNew : last.lookup increment = some (.collection newKind new) := by
        rw [← lookedUp]
        apply reaches.lookup
        intro part isPart occurs
        exact runs.apart (List.mem_flatMap.mpr ⟨part, isPart, occurs⟩)
      have evaluatedNew : session.evalIn check last (.var increment) =
          .ok (.collection newKind new) := Session.lookup_of_env isNew
      cases evaluatedNew.symm.trans evaluated
      refine ⟨row, member, (Pattern.readIn_rename ?_).mp read⟩
      intro name occurs
      rw [same name (clauseAmong occurs)]
      rcases changed name occurs with unchanged | ⟨isPair, isEquation⟩
      · rw [unchanged]
      · have isProduced : name ∈ clauses.flatMap produced :=
          List.mem_flatMap.mpr ⟨_, isClause, Pattern.mem_vars.mpr occurs⟩
        have isTarget : change name ∈ aliases.map Prod.snd :=
          List.mem_map_of_mem isPair
        obtain ⟨value, foundName, -⟩ :=
          reaches.exists_plain runs.plain (.refl env)
          ((runs.bound name).mpr (.inl isProduced))
        obtain ⟨other, foundTarget, isPlain⟩ :=
          reaches.exists_plain runs.plain (.refl env)
          ((runs.bound (change name)).mpr (.inr isTarget))
        have equal := Session.eq_of_held (held _ (areTests isEquation))
          foundName foundTarget isPlain
        rw [foundName, foundTarget, equal]

end Sound

section Complete

variable (runs :
  Runs session env increment new names clauses parts conditions aliases)
  (uniform : session.Uniform) (free : env.IsFunctionFree)
    (startedCheck : Session.Started check)
  (holds : ∀ clause ∈ clauses, clause.HoldsIn (session.evalIn check) new given)
  (same : ∀ name ∉ aliases.map Prod.snd, full.lookup name = given.lookup name)
  (aliased : ∀ pair ∈ aliases, full.lookup pair.2 = given.lookup pair.1)

include runs same aliased

/-- The variables of a call have their values under the names that the scan
binds. -/
theorem lookup_change {change : Name → Name} {argument : Pattern}
    (argumentAmong : argument.occurrences ⊆ names)
    (changed : ∀ name ∈ argument.occurrences, change name = name ∨
      (name, change name) ∈ aliases) :
    ∀ name ∈ argument.occurrences, full.lookup (change name) =
      given.lookup name := by
  intro name occurs
  rcases changed name occurs with unchanged | isPair
  · rw [unchanged]
    exact same name (runs.fresh name (argumentAmong occurs))
  · exact aliased _ isPair

include uniform free startedCheck holds

/-- Where all clauses hold, each scan finds the row that the variables build. -/
theorem exists_row_of_holdsIn
    (kept : given.lookup increment = env.lookup increment) {part : Generator}
    (isPart : part ∈ parts) {middle : Env}
    (extended : env.ExtendsPlainly middle)
    (agrees : ∀ name ∈ part.source.freeVars, middle.lookup name =
      full.lookup name)
    (started : Session.Started site) {rows : List Value}
    (evaluated : session.evalIn site middle part.source =
      .ok (.collection kind rows)) :
    ∃ row ∈ rows, part.pattern.ReadIn full row := by
  obtain ⟨clause, isClause, own, tests, realizes, isOwn⟩ :=
    runs.realized.of_part isPart
  have clauseHolds := holds clause isClause
  have clauseAmong := runs.among clause isClause
  cases realizes with
  | scan generator residual =>
      obtain ⟨patternAmong, sourceAmong, -⟩ := clauseAmong
      rw [List.mem_singleton.mp isOwn] at evaluated agrees isPart ⊢
      obtain ⟨⟨otherKind, found, evaluatedGiven, row, member, read⟩, -⟩ :=
        clauseHolds
      have again : session.evalIn check given generator.source =
        .ok (.collection kind rows) := by
        apply (runs.plain generator isPart).rows_eq uniform free extended _
          started startedCheck evaluated
        intro name inSource
        rw [agrees name inSource,
          same name (runs.fresh name (sourceAmong inSource))]
      cases again.symm.trans evaluatedGiven
      refine ⟨row, member, read.congr ?_⟩
      intro name occurs
      exact same name (runs.fresh name (patternAmong occurs))
  | filter condition => cases isOwn
  | recursive function argument change equations changed areEquations =>
      rw [List.mem_singleton.mp isOwn] at evaluated agrees ⊢
      obtain ⟨row, member, read⟩ := clauseHolds
      obtain ⟨newKind, lookedUp⟩ := runs.supplied
      have notTarget : increment ∉ aliases.map Prod.snd :=
        fun isTarget => runs.apart ((runs.bound increment).mpr (.inr isTarget))
      have isNew : middle.lookup increment =
        some (.collection newKind new) := by
        rw [agrees increment List.mem_cons_self, same increment notTarget, kept,
          lookedUp]
      have evaluatedNew : session.evalIn site middle (.var increment) =
          .ok (.collection newKind new) := Session.lookup_of_env isNew
      cases evaluatedNew.symm.trans evaluated
      refine ⟨row, member, (Pattern.readIn_rename ?_).mpr read⟩
      exact runs.lookup_change same aliased clauseAmong fun name occurs =>
        (changed name occurs).imp_right And.left

omit free in
/-- Where all clauses hold, all conditions do. -/
theorem holds_of_holdsIn (givenFree : given.IsFunctionFree)
    (produced : ∀ name ∈ clauses.flatMap produced, ∃ value, given.lookup name =
      some value)
    (agrees : ∀ name, last.lookup name = full.lookup name) :
    ∀ condition ∈ conditions, session.Holds last condition := by
  intro condition isCondition site started
  obtain ⟨clause, isClause, own, tests, realizes, isTest⟩ :=
    runs.realized.of_condition isCondition
  have clauseHolds := holds clause isClause
  have clauseAmong := runs.among clause isClause
  have passes {condition : Expr} (among : condition.freeVars ⊆ names)
      (isTrue : session.evalIn check given condition = .ok (.bool true)) :
      session.evalIn site last condition = .ok (.bool true) := by
    apply Session.evalIn_bool uniform startedCheck started _ isTrue
    refine ⟨?_, fun name _ => givenFree name⟩
    intro name member
    rw [agrees name, same name (runs.fresh name (among member))]
  cases realizes with
  | scan generator residual =>
      exact passes (clauseAmong.2.2 condition isTest)
        (clauseHolds.2 condition isTest)
  | filter other =>
      rw [List.mem_singleton.mp isTest]
      exact passes clauseAmong clauseHolds
  | recursive function argument change equations changed areEquations =>
      obtain ⟨name, occurs, isPair, isEquation⟩ := areEquations condition isTest
      subst isEquation
      obtain ⟨value, found⟩ := produced name
        (List.mem_flatMap.mpr ⟨_, isClause, Pattern.mem_vars.mpr occurs⟩)
      have foundName : last.lookup name = some value := by
        rw [agrees, same name (runs.fresh name (clauseAmong occurs)), found]
      have foundTarget : last.lookup (change name) = some value := by
        rw [agrees, aliased _ isPair, found]
      have compared :
        session.evalIn site last (.equals (.var name) (.var (change name))) =
          .ok (.bool (value.same value)) :=
        Expr.eval_equals (Session.lookup_of_env foundName)
          (Session.lookup_of_env foundTarget)
      rw [compared, Value.Alike.refl value]

end Complete

section Rows

variable {goals : List Name} {kind : CollectionKind} {rows : List Value}
  {row : Value}
  (runs : Runs session env increment new names clauses parts conditions aliases)
  (uniform : session.Uniform) (free : env.IsFunctionFree)
    (started : Session.Started site)
  (startedCheck : Session.Started check)
    (covered : goals ⊆ clauses.flatMap produced)
  (evaluated : session.evalIn site env
    (.collect (.filtered (parts.map Generator.scan) conditions (.row goals))) =
      .ok (.collection kind rows))

include runs uniform free started startedCheck covered evaluated

/-- Each row belongs to values without bags and functions for which all clauses
hold. -/
theorem exists_chosen_of_mem (member : row ∈ rows) :
    ∃ chosen : Env,
      (chosen.Assigns fun name => (clauses.flatMap produced).contains name) ∧
      (∀ name value, chosen.lookup name = some value →
        value.toExpr?.isSome = true) ∧
      (∀ clause ∈ clauses,
        clause.HoldsIn (session.evalIn check) new (chosen ++ env)) ∧
      session.evalIn check (chosen ++ env) (.row goals) = .ok row := by
  obtain ⟨found, collected, equality⟩ := Outcome.bind_eq_ok_iff.mp evaluated
  cases equality
  obtain ⟨last, inside, scanned, reaches, startedInside, finished⟩ :=
    Generator.exists_reaches_of_mem started collected member
  obtain ⟨held, place, startedPlace, evaluatedRow⟩ :=
    Generator.held_of_output (parts.map Generator.scan) startedInside finished
  have lastFree :=
    (reaches.extendsPlainly runs.plain (.refl env)).isFunctionFree free
  have plain : ∀ name ∈ clauses.flatMap produced, ∃ value, last.lookup name =
    some value ∧ value.toExpr?.isSome = true := fun name isProduced =>
    reaches.exists_plain runs.plain (.refl env)
      ((runs.bound name).mpr (.inl isProduced))
  have given : ∀ name ∈ clauses.flatMap produced, ∃ value, last.lookup name =
    some value := by
    intro name isProduced
    obtain ⟨value, lookedUp, -⟩ := plain name isProduced
    exact ⟨value, lookedUp⟩
  have names_apart : Name.Apart id (clauses.flatMap produced) names :=
    ⟨IsAmong.produced runs.among, fun _ _ _ _ equal => equal, fun _ _ => rfl⟩
  obtain ⟨chosen, assigns, same⟩ :=
    Env.exists_chosen names_apart lastFree given (by
    intro name isName absent
    apply reaches.lookup
    intro part isPart occurs
    rcases (runs.bound name).mp
      (List.mem_flatMap.mpr ⟨part, isPart, occurs⟩) with
      isProduced | isTarget
    · exact absent isProduced
    · exact runs.fresh name isName isTarget)
  rw [List.map_id] at assigns
  refine ⟨chosen, assigns, ?_,
    runs.holdsIn_of_reaches uniform free reaches held same startedCheck, ?_⟩
  · intro name value found
    have isProduced : name ∈ clauses.flatMap produced := by
      have isNamed := assigns.domain name
      rw [found] at isNamed
      exact List.contains_iff_mem.mp isNamed.symm
    have lookedUp : (chosen ++ env).lookup name = last.lookup name :=
      same name (IsAmong.produced runs.among isProduced)
    obtain ⟨other, isOther, isPlain⟩ := plain name isProduced
    rw [List.lookup_append, found, Option.some_or, isOther] at lookedUp
    cases lookedUp
    exact isPlain
  obtain ⟨value, built⟩ :=
    Expr.exists_valueIn_row fun name isGoal => given name (covered isGoal)
  have isRow : session.evalIn place last (.row goals) = .ok value :=
    Expr.eval_of_valueIn built
  cases isRow.symm.trans evaluatedRow
  apply Expr.eval_of_valueIn
  rw [← built]
  apply Expr.valueIn_congr
  intro name isGoal
  rw [Expr.freeVars_row] at isGoal
  exact same name (IsAmong.produced runs.among (covered isGoal))

/-- Values for which all clauses hold have their row. -/
theorem mem_of_holdsIn {chosen : Env}
    (assigns : chosen.Assigns fun name =>
      (clauses.flatMap produced).contains name)
    (holds : ∀ clause ∈ clauses,
      clause.HoldsIn (session.evalIn check) new (chosen ++ env))
    (evaluatedRow : session.evalIn check (chosen ++ env) (.row goals) =
      .ok row) : row ∈ rows := by
  have given : ∀ name ∈ clauses.flatMap produced, ∃ value,
      (chosen ++ env).lookup name = some value := by
    intro name isProduced
    obtain ⟨value, found⟩ :=
      assigns.exists_lookup (List.contains_iff_mem.mpr isProduced)
    refine ⟨value, ?_⟩
    rw [List.lookup_append, found, Option.some_or]
  have outside {name : Name} (absent : name ∉ clauses.flatMap produced) :
      (chosen ++ env).lookup name = env.lookup name := by
    have none : chosen.lookup name = none := by
      apply assigns.lookup_eq_none
      simpa using absent
    rw [List.lookup_append, none, Option.none_or]
  have givenFree : (chosen ++ env).IsFunctionFree := by
    intro name value found
    rw [List.lookup_append, Option.or_eq_some_iff] at found
    rcases found with inChosen | ⟨-, inEnv⟩
    · exact assigns.functionFree name value inChosen
    · exact free name value inEnv
  obtain ⟨full, same, aliased⟩ :=
    Env.exists_aliased runs.distinct fun pair isPair =>
    given pair.1 (runs.originals (List.mem_map_of_mem isPair))
  have kept : (chosen ++ env).lookup increment = env.lookup increment :=
    outside fun isProduced =>
      runs.apart ((runs.bound increment).mpr (.inl isProduced))
  have guides := @Generator.guides_of_assignment session parts env env full
    runs.separate runs.plain
    (fun part isPart middle extended agrees site kind rows started evaluated =>
      runs.exists_row_of_holdsIn uniform free startedCheck holds same aliased
        kept isPart extended agrees started evaluated)
    (.refl env) (by
      intro name absent
      rw [runs.bound, not_or] at absent
      rw [same name absent.2, outside absent.1])
  obtain ⟨found, collected, equality⟩ := Outcome.bind_eq_ok_iff.mp evaluated
  cases equality
  obtain ⟨last, inside, scanned, output, ⟨_, agrees⟩, startedInside, finished,
    subset⟩ :=
    guides.exists_finish started collected
  have allHold := runs.holds_of_holdsIn uniform startedCheck holds same aliased
    givenFree given agrees
  obtain ⟨result, place, isOutput, _, evaluatedLast⟩ :=
    Generator.exists_output_of_holds (parts.map Generator.scan) startedInside
      allHold finished
  subst isOutput
  obtain ⟨value, built⟩ :=
    Expr.exists_valueIn_row fun name isGoal => given name (covered isGoal)
  have isRow : session.evalIn check (chosen ++ env) (.row goals) = .ok value :=
    Expr.eval_of_valueIn built
  cases isRow.symm.trans evaluatedRow
  have builtLast : (Expr.row goals).valueIn last = some row := by
    rw [← built]
    apply Expr.valueIn_congr
    intro name isGoal
    rw [Expr.freeVars_row] at isGoal
    have isName := IsAmong.produced runs.among (covered isGoal)
    rw [agrees, same name (runs.fresh name isName)]
  have isResult : session.evalIn place last (.row goals) = .ok row :=
    Expr.eval_of_valueIn builtLast
  cases isResult.symm.trans evaluatedLast
  exact subset (Option.mem_toList.mpr rfl)

end Rows

end Runs

end StepClause

end RecursiveQuery
