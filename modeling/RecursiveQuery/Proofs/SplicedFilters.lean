import RecursiveQuery.Proofs.ChosenValues

/-!
# Spliced filters

An `exists` filter is taken apart into clauses over one common scope, with new
names for variables that would clash.  Where its scans have separate variables,
the filter holds exactly if some values of these variables make all clauses
true.
-/

namespace RecursiveQuery

namespace Session

variable {session : Session} {env other : Env} {site site' : Site}
  {change : Name → Name}
variable {conditions : List Expr} {output : Value}

/-- An expression evaluates to a corresponding value under other names of its
variables. -/
theorem exists_evalIn_renamed (uniform : session.Uniform)
    (started : Started site) (started' : Started site') {expr expr' : Expr}
    (instanced : expr.Instance (fun name => .var (change name)) expr')
    (free : env.IsFunctionFree)
    (same : ∀ name ∈ expr.freeVars, other.lookup (change name) =
      env.lookup name)
    (unbound : ∀ name ∈ expr.freeVars, env.lookup name = none →
      change name = name)
    {value : Value} (evaluated : session.evalIn site env expr = .ok value) :
    ∃ value', session.evalIn site' other expr' = .ok value' ∧
      Value.Corresponds (Across site site') value value' := by
  have means : Env.Means (Across site site') (fun name => .var (change name))
    expr.freeVars env other := by
    constructor
    · intro name member
      rw [Expr.valueIn, same name member]
      cases found : env.lookup name with
      | none => exact .none
      | some value => exact .some (.of_isFunctionFree (free name value found))
    · intro name member absent
      rw [unbound name member absent]
  have agree := evalIn_instance_agree (uniform started started') instanced
    Across.below means
  rw [evaluated] at agree
  exact agree.exists_ok

/-- An `exists` filter searches for a row. -/
theorem searched_of_existence {query : Query} {holds : Bool}
    (evaluated : session.evalIn site env (.existence query) =
      .ok (.bool holds)) :
    Expr.existsScans session (session.call session.limits.maxDepth)
      (fun env site scanned =>
        Expr.evalSteps session (session.call session.limits.maxDepth) env site
        (.ofScanned scanned) query.steps) env site [] query.scans =
        .ok holds := by
  obtain ⟨scans, steps⟩ := query
  obtain ⟨found, searched, equality⟩ := Outcome.bind_eq_ok_iff.mp evaluated
  cases equality
  exact searched

/-- Conditions that are passed hold. -/
theorem held_of_filters {result : Value} (started : Started site)
    (finished : Expr.evalSteps session (session.call session.limits.maxDepth)
      env site output (conditions.map .filter) = .ok (some result)) :
    ∀ condition ∈ conditions, session.Held env condition := by
  induction conditions generalizing site with
  | nil => exact nofun
  | cons condition conditions induction =>
      obtain ⟨value, evaluated, rest⟩ := Outcome.bind_eq_ok_iff.mp finished
      obtain ⟨holds, isBool, rest⟩ := Outcome.bind_eq_ok_iff.mp rest
      cases asBool_eq_ok_iff.mp isBool
      cases holds with
      | false => cases rest
      | true =>
          exact List.forall_mem_cons.mpr
            ⟨⟨_, started.cons 0, evaluated⟩, induction (started.cons 1) rest⟩

/-- Conditions that are not passed include a false one. -/
theorem exists_false_of_filters (started : Started site)
    (finished : Expr.evalSteps session (session.call session.limits.maxDepth)
      env site output (conditions.map .filter) = .ok none) :
    ∃ condition ∈ conditions, ∃ inside, Started inside ∧
      session.evalIn inside env condition = .ok (.bool false) := by
  induction conditions generalizing site with
  | nil => cases finished
  | cons condition conditions induction =>
      obtain ⟨value, evaluated, rest⟩ := Outcome.bind_eq_ok_iff.mp finished
      obtain ⟨holds, isBool, rest⟩ := Outcome.bind_eq_ok_iff.mp rest
      cases asBool_eq_ok_iff.mp isBool
      cases holds with
      | false =>
          exact ⟨condition, List.mem_cons_self, _, started.cons 0, evaluated⟩
      | true =>
          obtain ⟨other, member, found⟩ := induction (started.cons 1) rest
          exact ⟨other, List.mem_cons_of_mem _ member, found⟩

end Session

namespace Scope

variable {scope : Scope} {program : Program} {query : Query} {taken : List Name}
  {supply : NameSupply}
variable {name : Name}

/-- The name that a variable has once an `exists` filter is taken apart. -/
def nameAfter (scope : Scope) (program : Program) (query : Query)
    (taken : List Name) (supply : NameSupply) : Name → Name :=
  Name.renamed ((scope.nameApart program query.scanVars taken).run supply).1.1

theorem nameAfter_injective {other : Name} (isUsed : name ∈ supply.used)
    (otherUsed : other ∈ supply.used)
    (equal : scope.nameAfter program query taken supply name =
      scope.nameAfter program query taken supply other) : name = other := by
  have targets := (@nameApart_spec scope program query.scanVars taken supply).2
  have distinct :=
    (@nameApart_distinct scope program query.scanVars taken supply).2
  exact Name.renamed_injective
    (fun rename member => (targets rename member).2.1) distinct isUsed
    otherUsed equal

theorem nameAfter_of_not_mem (absent : name ∉ query.scanVars) :
    scope.nameAfter program query taken supply name = name := by
  have targets := (@nameApart_spec scope program query.scanVars taken supply).2
  rcases Name.renamed_cases
    ((scope.nameApart program query.scanVars taken).run supply).1.1 name
    with member | ⟨-, same⟩
  · exact absurd (targets _ member).1 absent
  · exact same

/-- The clauses of a filter that is taken apart are instances of its own
ones. -/
theorem unwrap_instances
    (reserved : (Expr.existence query).allNames ⊆ supply.used) :
    (scope.unwrap program query taken).Ensures supply fun unwrapped _ =>
      ∀ clauses ∈ unwrapped.1, ∃ originals, query.filterClauses? =
        some originals ∧ List.Forall₂ (fun original clause => original.Instance
          (fun name => .var (scope.nameAfter program query taken supply name))
            clause)
          originals clauses := by
  have named := @nameApart_spec scope program query.scanVars taken supply
  have ran : (scope.nameApart program query.scanVars taken).Ensures supply
    fun result _ =>
      Name.renamed result.1 = scope.nameAfter program query taken supply :=
    ⟨named.1, rfl⟩
  refine unwrap_ensures (named.and ran) ?_
  intro originals apart result later grown found
  obtain ⟨targets, isName⟩ := found
  have originalsReserved :=
    filterClauses_reserved (List.Subset.trans reserved grown) apart
  have instances : ∀ original ∈ originals, ∀ last, later.used ⊆ last.used →
      (original.renameFree result.1).Ensures last fun clause _ =>
      original.Instance
        (fun name => .var (scope.nameAfter program query taken supply name))
        clause := by
    intro original member last grownLast
    rw [← isName, ← Replacements.meant_ofRenames]
    refine Expr.substitute_instance
      (List.Subset.trans (originalsReserved original member) grownLast) ?_
    exact Replacements.freeVars_ofRenames fun rename isRename =>
      grownLast (targets rename isRename).2.2
  refine (renameClauses_ensures (fun _ _ _ _ _ found => found)
    instances).mono ?_
  intro clauses last _ related
  exact ⟨originals, apart, related⟩

end Scope

namespace Query

theorem scanVars_subset_allNames (query : Query) :
    query.scanVars ⊆ (Expr.existence query).allNames := by
  obtain ⟨scans, steps⟩ := query
  intro name isVar
  obtain ⟨scan, isScan, occurs⟩ :=
    List.mem_flatMap.mp (List.mem_eraseDups.mp isVar)
  exact List.mem_append_left _
    (Expr.allNames_of_mem_scans isScan (List.mem_append_left _ occurs))

/-- A filter over generators, the clauses that it stands for, and instances of
these under names that clash with no others. -/
structure Splices (session : Session) (env : Env) (query : Query)
    (parts : List Generator) (change : Name → Name) (used : List Name)
    (originals clauses : List Expr) : Prop where
  scans : query.scans = parts.map Generator.scan
  separate : Generator.Separate parts
  plain : ∀ part ∈ parts, session.YieldsPlainly env part.source
  apart : query.filterClauses? = some originals
  names : Name.Apart change query.scanVars used
  reserved : ∀ original ∈ originals, original.freeVars ⊆ used
  instances : List.Forall₂ (fun original clause =>
    original.Instance (fun name => .var (change name)) clause) originals clauses

namespace Splices

variable {session : Session} {env last chosen full : Env} {query : Query}
  {parts : List Generator}
  {change : Name → Name} {used : List Name} {originals clauses : List Expr}
    {site check : Site}

theorem mem_scanVars
    (splices : query.Splices session env parts change used originals clauses)
    {name : Name} : name ∈ query.scanVars ↔
    ∃ part ∈ parts, name ∈ part.pattern.occurrences := by
  rw [scanVars, List.mem_eraseDups, splices.scans, List.flatMap_map,
    List.mem_flatMap]
  rfl

/-- A clause has the truth value of the clause it was made from. -/
theorem evalIn_clause
    (splices : query.Splices session env parts change used originals clauses)
    (uniform : session.Uniform) (free : last.IsFunctionFree)
    (given : ∀ name ∈ query.scanVars, ∃ value, last.lookup name = some value)
    (same : ∀ name ∈ used, (chosen ++ env).lookup (change name) = last.lookup
      name) {original clause : Expr} (subset : original.freeVars ⊆ used)
    (instanced : original.Instance (fun name => .var (change name)) clause)
    (started : Session.Started site) (startedCheck : Session.Started check)
    {value : Value} (evaluated : session.evalIn site last original = .ok value)
    (valueFree : value.isFunctionFree = true) :
    session.evalIn check (chosen ++ env) clause = .ok value := by
  obtain ⟨value', evaluated', pair⟩ :=
    Session.exists_evalIn_renamed uniform started startedCheck
    instanced free (fun name member => same name (subset member))
    (fun name _ absent => splices.names.fixed name fun isVar => by
      obtain ⟨value, found⟩ := given name isVar
      rw [absent] at found
      cases found) evaluated
  rw [evaluated', pair.eq_of_isFunctionFree valueFree]

/-- Where a filter finds rows and passes its conditions, its clauses are
true. -/
theorem held_of_reaches
    (splices : query.Splices session env parts change used originals clauses)
    (uniform : session.Uniform) (free : env.IsFunctionFree)
    (reaches : Generator.Reaches session parts env last)
    (conditions : ∀ condition, .filter condition ∈ query.steps →
      session.Held last condition) :
    ∀ original ∈ originals, session.Held last original := by
  intro original member
  rcases mem_filterClauses? splices.apart original member with
    ⟨pattern, source, row, inScans, rebuilt, rfl⟩ | isCondition
  · rw [splices.scans] at inScans
    obtain ⟨part, isPart, isScan⟩ := List.mem_map.mp inScans
    cases isScan
    have started : Session.Started (1 :: Session.root 0) :=
      (Session.Started.root 0).cons 1
    obtain ⟨kind, rows, evaluated, found, inRows, read⟩ :=
      reaches.exists_row splices.separate
      uniform free splices.plain (.refl env) started part isPart
    refine ⟨Session.root 0, .root 0, ?_⟩
    rw [Session.evalIn] at evaluated ⊢
    rw [Expr.eval, Expr.eval_of_valueIn
      (Pattern.valueIn_of_readIn rebuilt read), Outcome.ok_bind, evaluated]
    have listed : (rows.any fun candidate => candidate.same found) = true :=
      List.any_eq_true.mpr ⟨found, inRows, Value.Alike.refl found⟩
    rw [Outcome.ok_bind, BinaryOp.apply, Value.memberOf, listed]
    rfl
  · exact conditions original isCondition

/-- A filter that holds does so for some values of its variables. -/
theorem exists_chosen_of_found
    (splices : query.Splices session env parts change used originals clauses)
    (uniform : session.Uniform) (free : env.IsFunctionFree)
    (started : Session.Started site) (startedCheck : Session.Started check)
    (evaluated : session.evalIn site env (.existence query) =
      .ok (.bool true)) :
    ∃ chosen : Env,
      (chosen.Assigns fun name => (query.scanVars.map change).contains name) ∧
      ∀ clause ∈ clauses, session.evalIn check (chosen ++ env) clause =
        .ok (.bool true) := by
  obtain ⟨conditions, isConditions⟩ : ∃ conditions : List Expr,
      query.steps = conditions.map .filter := by
    obtain ⟨_, conditions, _, _, steps, _⟩ := filterClauses?_cases splices.apart
    exact ⟨conditions, steps⟩
  have searched := Session.searched_of_existence evaluated
  rw [splices.scans] at searched
  obtain ⟨last, inside, scanned, output, reaches, startedInside, finished⟩ :=
    Generator.exists_reaches_of_found started searched
  rw [isConditions] at finished
  have held := Session.held_of_filters startedInside finished
  have holds : ∀ original ∈ originals, session.Held last original := by
    refine splices.held_of_reaches uniform free reaches ?_
    intro condition isStep
    rw [isConditions] at isStep
    obtain ⟨other, member, same⟩ := List.mem_map.mp isStep
    cases same
    exact held condition member
  have lastFree :=
    (reaches.extendsPlainly splices.plain (.refl env)).isFunctionFree free
  have given : ∀ name ∈ query.scanVars, ∃ value, last.lookup name =
    some value :=
    fun name isVar => reaches.exists_lookup (splices.mem_scanVars.mp isVar)
  obtain ⟨chosen, assigns, same⟩ :=
    Env.exists_chosen splices.names lastFree given
    fun name _ absent => reaches.lookup fun part isPart occurs =>
      absent (splices.mem_scanVars.mpr ⟨part, isPart, occurs⟩)
  refine ⟨chosen, assigns, ?_⟩
  intro clause member
  obtain ⟨original, isOriginal, instanced⟩ :=
    exists_mem_left splices.instances member
  obtain ⟨place, startedPlace, isTrue⟩ := holds original isOriginal
  exact splices.evalIn_clause uniform lastFree given same
    (splices.reserved original isOriginal)
    instanced startedPlace startedCheck isTrue rfl

/-- Where the clause of a scan is true, its source has the row that the
variables build. -/
theorem exists_row_of_clause
    (splices : query.Splices session env parts change used originals clauses)
    (uniform : session.Uniform) (fullFree : full.IsFunctionFree)
    (free : env.IsFunctionFree)
    (given : ∀ name ∈ query.scanVars, ∃ value, full.lookup name = some value)
    (same : ∀ name ∈ used, (chosen ++ env).lookup (change name) =
      full.lookup name) (startedCheck : Session.Started check)
    (allTrue : ∀ clause ∈ clauses,
      session.evalIn check (chosen ++ env) clause = .ok (.bool true))
    {part : Generator} (isPart : part ∈ parts) {middle : Env}
    (extended : env.ExtendsPlainly middle)
    (agrees : ∀ name ∈ part.source.freeVars, middle.lookup name =
      full.lookup name) (started : Session.Started site) {kind : CollectionKind}
      {rows : List Value}
    (evaluated : session.evalIn site middle part.source =
      .ok (.collection kind rows)) :
    ∃ row ∈ rows, part.pattern.ReadIn full row := by
  have inScans : part.scan ∈ query.scans :=
    splices.scans ▸ List.mem_map_of_mem isPart
  obtain ⟨row, rebuilt, isOriginal⟩ :=
    exists_membership_of_mem splices.apart inScans
  obtain ⟨clause, isClause, instanced⟩ :=
    exists_mem_left splices.instances.flip isOriginal
  obtain ⟨row', source', rfl, rowInstance, sourceInstance⟩ := instanced
  obtain ⟨rowReserved, sourceReserved⟩ :=
    List.append_subset.mp (splices.reserved _ isOriginal)
  -- What the clause compares is the value that the variables build and the rows
  -- of the source.
  have inFull : session.evalIn site full part.source =
    .ok (.collection kind rows) :=
    (splices.plain part isPart).rows_eq uniform free extended
      (fun name member => (agrees name member).symm) started started evaluated
  have rowsFree : (Value.collection kind rows).isFunctionFree = true :=
    Value.areFunctionFree_iff.mpr fun found member =>
      Value.isFunctionFree_of_plain
      (splices.plain part isPart middle extended site kind rows started
        evaluated found member)
  obtain ⟨value, read⟩ :=
    @Pattern.exists_readIn part.pattern full fun name occurs =>
    given name (splices.mem_scanVars.mpr ⟨part, isPart, occurs⟩)
  have built := Pattern.valueIn_of_readIn rebuilt read
  have rowInFull : session.evalIn site full row = .ok value :=
    Expr.eval_of_valueIn built
  have evaluatedRow :=
    splices.evalIn_clause uniform fullFree given same rowReserved rowInstance
    started (startedCheck.cons 0) rowInFull
      (Expr.isFunctionFree_of_valueIn fullFree built)
  have evaluatedSource :=
    splices.evalIn_clause uniform fullFree given same sourceReserved
    sourceInstance started (startedCheck.cons 1) inFull rowsFree
  have isTrue := allTrue _ isClause
  rw [Session.evalIn] at isTrue evaluatedRow evaluatedSource
  rw [Expr.eval, evaluatedRow, Outcome.ok_bind, evaluatedSource,
    Outcome.ok_bind] at isTrue
  have listed : (rows.any fun candidate => candidate.same value) = true :=
    Value.bool.inj (Outcome.pure_eq_ok_iff.mp isTrue)
  obtain ⟨found, member, alike⟩ := List.any_eq_true.mp listed
  have isPlain :=
    splices.plain part isPart middle extended site kind rows started evaluated
      found member
  rw [Value.eq_of_alike isPlain (Value.Alike.symm alike)] at read
  exact ⟨found, member, read⟩

/-- A filter that does not hold does so for no values of its variables. -/
theorem false_of_not_found
    (splices : query.Splices session env parts change used originals clauses)
    (uniform : session.Uniform) (free : env.IsFunctionFree)
    (started : Session.Started site) (startedCheck : Session.Started check)
    (assigns : chosen.Assigns fun name =>
      (query.scanVars.map change).contains name)
    (allTrue : ∀ clause ∈ clauses,
      session.evalIn check (chosen ++ env) clause = .ok (.bool true))
    (evaluated : session.evalIn site env (.existence query) =
      .ok (.bool false)) : False := by
  obtain ⟨memberships, conditions, isOriginals, _, isConditions, _⟩ :=
    filterClauses?_cases splices.apart
  obtain ⟨full, fullFree, given, kept, same⟩ :=
    Env.exists_original splices.names free assigns
  have guides :=
    @Generator.guides_of_assignment session parts env env full splices.separate
    splices.plain
    (fun part isPart middle extended agrees site kind rows started evaluated =>
      splices.exists_row_of_clause uniform fullFree free given same startedCheck
        allTrue isPart extended agrees started evaluated)
    (.refl env) (fun name absent => (kept name fun isVar => absent (by
      obtain ⟨part, isPart, occurs⟩ := splices.mem_scanVars.mp isVar
      exact List.mem_flatMap.mpr ⟨part, isPart, occurs⟩)).symm)
  have searched := Session.searched_of_existence evaluated
  rw [splices.scans] at searched
  obtain ⟨last, inside, scanned, ⟨extended, agrees⟩, startedInside, finished⟩ :=
    guides.exists_finish_of_not_found started searched
  rw [isConditions] at finished
  obtain ⟨condition, isCondition, place, startedPlace, isFalse⟩ :=
    Session.exists_false_of_filters startedInside finished
  have isOriginal : condition ∈ originals :=
    isOriginals ▸ List.mem_append_right _ isCondition
  obtain ⟨clause, isClause, instanced⟩ :=
    exists_mem_left splices.instances.flip isOriginal
  have lastGiven : ∀ name ∈ query.scanVars, ∃ value, last.lookup name =
    some value := by
    intro name isVar
    rw [agrees]
    exact given name isVar
  have clauseFalse :=
    splices.evalIn_clause uniform (extended.isFunctionFree free) lastGiven
    (fun name isUsed => (same name isUsed).trans (agrees name).symm)
    (splices.reserved condition isOriginal) instanced startedPlace startedCheck
    isFalse rfl
  rw [allTrue clause isClause] at clauseFalse
  cases clauseFalse

end Splices

end Query

/-- Whether no source mentions a variable of its own scan or of one behind
it. -/
def Scan.areInOrder : List Scan → Bool
  | [] => true
  | scan :: scans =>
      ((Expr.freeVarsSource scan.source).all fun name =>
        !((scan :: scans).flatMap fun other =>
          other.pattern.occurrences).contains name) &&
      areInOrder scans

theorem Generator.exists_map_scan {scans : List Scan}
    (sourced : ∀ scan ∈ scans, scan.source.isSome = true) :
    ∃ parts : List Generator, scans = parts.map scan := by
  induction scans with
  | nil => exact ⟨[], rfl⟩
  | cons scan scans induction =>
      rw [List.forall_mem_cons] at sourced
      obtain ⟨parts, rfl⟩ := induction sourced.2
      obtain ⟨pattern, source⟩ := scan
      obtain ⟨source, rfl⟩ := Option.isSome_iff_exists.mp sourced.1
      exact ⟨⟨pattern, source, .list, .finite⟩ :: parts, rfl⟩

theorem Generator.separate_of_areInOrder {parts : List Generator}
    (distinct :
      ((parts.map scan).flatMap fun scan => scan.pattern.occurrences).Nodup)
    (inOrder : Scan.areInOrder (parts.map scan) = true) : Separate parts := by
  refine ⟨by rwa [List.flatMap_map] at distinct, ?_⟩
  intro before part behind equality
  subst equality
  induction before with
  | nil =>
      obtain ⟨own, -⟩ := Bool.and_eq_true_iff.mp inOrder
      intro name inSource
      have absent : (!(boundBy (part :: behind)).contains name) = true := by
        have found := List.all_eq_true.mp own name inSource
        rwa [← List.map_cons, List.flatMap_map] at found
      simpa using absent
  | cons first before induction =>
      rw [List.cons_append, List.map_cons, List.flatMap_cons] at distinct
      exact induction (List.nodup_append.mp distinct).2.1
        (Bool.and_eq_true_iff.mp inOrder).2

/-- An `exists` filter holds exactly if some values of its variables, under the
names they end up with, make all clauses true that it is taken apart into.  The
scans have separate variables and sources in order, and rows have neither bags
nor functions. -/
theorem Scope.filter_holds_iff_clauses_hold {program : Program}
    {limits : Limits} {scope : Scope} {query : Query} {taken : List Name}
    {supply : NameSupply} {clauses : List Expr} {env : Env} {holds : Bool}
    {evaluation check : Nat}
    (extent : ∀ values, limits.extent = some values → ∀ value ∈ values,
      value.isFunctionFree = true)
    (sourced : ∀ scan ∈ query.scans, scan.source.isSome = true)
    (distinct :
      (query.scans.flatMap fun scan => scan.pattern.occurrences).Nodup)
    (inOrder : Scan.areInOrder query.scans = true)
    (reserved : (Expr.existence query).allNames ⊆ supply.used)
    (free : env.IsFunctionFree)
    (plain : ∀ scan ∈ query.scans, ∀ source ∈ scan.source, ∀ inner,
      env.ExtendsPlainly inner →
      ∀ kind rows, program.evaluate limits (Session.root check) inner source =
        .ok (.collection kind rows) → ∀ row ∈ rows, row.toExpr?.isSome = true)
    (unwrapped : ((scope.unwrap program query taken).run supply).1.1 =
      some clauses)
    (evaluated :
      program.evaluate limits (Session.root evaluation) env (.existence query) =
      .ok (.bool holds)) :
    holds = true ↔ ∃ chosen : Env,
      (chosen.Assigns fun name =>
        (query.scanVars.map
          (scope.nameAfter program query taken supply)).contains name) ∧
      ∀ clause ∈ clauses,
      program.evaluate limits (Session.root check) (chosen ++ env) clause =
        .ok (.bool true) := by
  obtain ⟨session, loaded, evaluated⟩ := Outcome.bind_eq_ok_iff.mp evaluated
  have evaluate (site : Site) (env : Env) (expr : Expr) :
      program.evaluate limits site env expr = session.evalIn site env expr := by
    rw [Program.evaluate, loaded]
    rfl
  simp only [evaluate] at plain ⊢
  have uniform : session.Uniform := Session.uniform_of_load extent loaded
  obtain ⟨parts, isParts⟩ := Generator.exists_map_scan sourced
  obtain ⟨originals, apart, instances⟩ :=
    (unwrap_instances reserved).2 clauses unwrapped
  have splices :
    query.Splices session env parts (scope.nameAfter program query taken supply)
      supply.used originals clauses := by
    refine ⟨isParts, ?_, ?_, apart, ⟨?_, ?_, ?_⟩, ?_, instances⟩
    · rw [isParts] at distinct inOrder
      exact Generator.separate_of_areInOrder distinct inOrder
    · intro part isPart
      exact Session.yieldsPlainly_of_root uniform free
        (plain part.scan (isParts ▸ List.mem_map_of_mem isPart) part.source rfl)
    · exact List.Subset.trans query.scanVars_subset_allNames reserved
    · intro name isUsed other otherUsed equal
      exact nameAfter_injective isUsed otherUsed equal
    · intro name absent
      exact nameAfter_of_not_mem absent
    · intro original member
      exact List.Subset.trans (Expr.freeVars_subset_allNames original)
        (filterClauses_reserved reserved apart original member)
  cases holds with
  | true =>
      refine iff_of_true rfl ?_
      exact splices.exists_chosen_of_found uniform free (.root evaluation)
        (.root check) evaluated
  | false =>
      refine iff_of_false Bool.false_ne_true ?_
      intro satisfied
      obtain ⟨chosen, assigns, allTrue⟩ := satisfied
      exact splices.false_of_not_found uniform free (.root evaluation)
        (.root check) assigns allTrue evaluated

namespace Scope

/-- A number of a list, and a number above it that is twice the first one. -/
def countedQuery : Query :=
  ⟨[⟨.var "x", some (.list [.int 1, .int 2])⟩,
    ⟨.var "y", some (.list [.var "x", .int 4])⟩],
    [.filter (.binary .lt (.var "x") (.var "y")),
      .filter (.binary .eq (.var "y") (.binary .add (.var "x") (.var "x")))]⟩

/-- The variable that clashes with a goal is renamed, also in the second source,
and the clauses hold for two and four. -/
theorem filter_holds_iff_clauses_hold_counted :
    let scope := Scope.initial ["x"] []
    let supply := NameSupply.reserving ["x", "y"]
    let env : Env := [("x", .int 7)]
    ∃ clauses, ((scope.unwrap ⟨[]⟩ countedQuery []).run supply).1.1 =
      some clauses ∧
      Program.evaluate ⟨[]⟩ {} (Session.root 0) env (.existence countedQuery) =
        .ok (.bool true) ∧
      ∃ chosen : Env, (chosen.Assigns fun name => ["x_1", "y"].contains name) ∧
        ∀ clause ∈ clauses,
          Program.evaluate ⟨[]⟩ {} (Session.root 1) (chosen ++ env) clause =
            .ok (.bool true) := by
  intro scope supply env
  let clauses : List Expr :=
    [.binary .member (.var "x_1") (.list [.int 1, .int 2]),
      .binary .member (.var "y") (.list [.var "x_1", .int 4]),
      .binary .lt (.var "x_1") (.var "y"),
      .binary .eq (.var "y") (.binary .add (.var "x_1") (.var "x_1"))]
  have unwrapped : ((scope.unwrap ⟨[]⟩ countedQuery []).run supply).1.1 =
    some clauses := by
    decide +kernel
  have evaluated :
    Program.evaluate ⟨[]⟩ {} (Session.root 0) env (.existence countedQuery) =
      .ok (.bool true) := by
    rfl
  have names :
    countedQuery.scanVars.map (scope.nameAfter ⟨[]⟩ countedQuery [] supply) =
      ["x_1", "y"] := by
    decide +kernel
  have free : env.IsFunctionFree := by
    intro name value found
    cases List.mem_singleton.mp (NameMap.mem_of_lookup found)
    rfl
  have plain : ∀ scan ∈ countedQuery.scans, ∀ source ∈ scan.source, ∀ inner,
      env.ExtendsPlainly inner → ∀ kind rows,
        Program.evaluate ⟨[]⟩ {} (Session.root 1) inner source =
          .ok (.collection kind rows) →
        ∀ row ∈ rows, row.toExpr?.isSome = true := by
    intro scan isScan source isSource inner extended kind rows scanned
    obtain ⟨value, found, isPlain⟩ : ∃ value, inner.lookup "x" = some value ∧
        value.toExpr?.isSome = true := by
      rcases extended "x" with same | other
      · exact ⟨.int 7, same, rfl⟩
      · exact other
    rcases List.mem_cons.mp isScan with rfl | isSecond
    · cases isSource
      cases scanned
      decide
    · cases List.mem_singleton.mp isSecond
      cases isSource
      have looked : (Session.empty {}).evalIn (Session.root 1) inner
          (.list [.var "x", .int 4]) =
          .ok (.collection .list [value, .int 4]) := by
        rw [Session.evalIn, Expr.eval, Expr.evalList, Expr.eval,
          Session.lookup_of_env found]
        rfl
      have same : Except.ok (.collection .list [value, .int 4]) =
          (Except.ok (.collection kind rows) : Outcome Value) :=
          looked.symm.trans scanned
      cases same
      intro row member
      rcases List.mem_cons.mp member with rfl | isFour
      · exact isPlain
      · rw [List.mem_singleton.mp isFour]
        rfl
  have noExtent : ∀ values, ({} : Limits).extent = some values →
    ∀ value ∈ values, value.isFunctionFree = true := by
    intro values absurdity
    cases absurdity
  obtain ⟨chosen, assigns, allTrue⟩ :=
    (@filter_holds_iff_clauses_hold ⟨[]⟩ {} scope countedQuery [] supply clauses
      env true 0 1
      noExtent (by decide) (by decide) (by decide) (by decide) free plain
        unwrapped evaluated).mp rfl
  rw [names] at assigns
  exact ⟨clauses, unwrapped, evaluated, chosen, assigns, allTrue⟩

/-- Scans that bind one name twice, the second hiding the first. -/
def hidingQuery : Query :=
  ⟨[⟨.var "x", some (.list [.int 1])⟩, ⟨.var "x", some (.list [.int 2])⟩],
    [.filter (.binary .eq (.var "x") (.int 2))]⟩

/-- A bag with the numbers one and two in an order, as a declaration. -/
def orderedBag : Program :=
  ⟨[.val "b" (some (.bag .int)) (some (.list [.int 1, .int 2]))]⟩

/-- A bag of a list whose rows, put behind a number in their order, are
these. -/
def orderQuery : Query :=
  ⟨[⟨.var "x", some (.list [.var "b"])⟩],
    [.filter (.binary .eq
      (.apply (.apply (.var "List.iterate") (.list [.int 0]))
        (.lambda (.tuple [.var "old", .var "new"]) (.var "x")))
      (.list [.int 0, .int 2, .int 1]))]⟩

/-- One scan that hides another makes a filter true whose clauses cannot hold
together, and the order of a bag makes a filter false whose clauses hold for an
equal bag. -/
theorem filter_disagrees_with_clauses :
    (∃ clauses,
      (((Scope.initial [] []).unwrap ⟨[]⟩ hidingQuery []).run
        (.reserving ["x"])).1.1 = some clauses ∧
      Program.evaluate ⟨[]⟩ {} (Session.root 0) [] (.existence hidingQuery) =
        .ok (.bool true) ∧
      ¬∃ chosen : Env, ∀ clause ∈ clauses,
        Program.evaluate ⟨[]⟩ {} (Session.root 1) (chosen ++ []) clause =
          .ok (.bool true)) ∧
    ∃ clauses,
      (((Scope.initial [] []).unwrap orderedBag orderQuery []).run
        (.reserving ["x", "b", "old", "new", "List.iterate"])).1.1 =
        some clauses ∧
      orderedBag.evaluate {} (Session.root 0) [] (.existence orderQuery) =
        .ok (.bool false) ∧
      ∃ chosen : Env, (chosen.Assigns fun name => ["x"].contains name) ∧
      ∀ clause ∈ clauses,
        orderedBag.evaluate {} (Session.root 1) (chosen ++ []) clause =
          .ok (.bool true) := by
  have listed {number : Int64} {env : Env}
      (isTrue : Program.evaluate ⟨[]⟩ {} (Session.root 1) env
        (.binary .member (.var "x") (.list [.int number])) = .ok (.bool true)) :
      env.lookup "x" = some (.int number) := by
    have isTrue : (Session.empty {}).evalIn (Session.root 1) env
        (.binary .member (.var "x") (.list [.int number])) =
        .ok (.bool true) := isTrue
    obtain ⟨value, looked, rest⟩ := Outcome.bind_eq_ok_iff.mp isTrue
    have alike : (Value.int number).same value = true := by
      have compared :
        Except.ok (.bool ((Value.int number).same value || false)) =
          (Except.ok (.bool true) : Outcome Value) := rest
      simpa using compared
    have isNumber := Value.eq_of_alike rfl (Value.Alike.symm alike)
    cases found : env.lookup "x" with
    | none =>
        have unbound : (Session.empty {}).lookup env "x" =
          .fail (.unbound "x") := by
          rw [Session.lookup, found]
          rfl
        cases unbound.symm.trans looked
    | some other =>
        cases (Session.lookup_of_env found).symm.trans looked
        rw [isNumber]
  constructor
  · refine ⟨_, rfl, by rfl, ?_⟩
    intro satisfied
    obtain ⟨chosen, allTrue⟩ := satisfied
    have one := listed (allTrue _ List.mem_cons_self)
    have two := listed (allTrue _ (List.mem_cons_of_mem _ List.mem_cons_self))
    rw [one] at two
    cases two
  · refine ⟨_, rfl, by rfl, [("x", .collection .bag [.int 2, .int 1])], ?_, ?_⟩
    · refine .of_entries (fun name => ?_) (by decide)
      rw [List.any_cons, List.any_nil, List.contains_cons, List.contains_nil]
    · intro clause member
      rcases List.mem_cons.mp member with rfl | isSecond
      · rfl
      · rw [List.mem_singleton.mp isSecond]
        rfl

end Scope

end RecursiveQuery
