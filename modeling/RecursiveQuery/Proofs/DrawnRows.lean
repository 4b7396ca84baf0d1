import RecursiveQuery.Proofs.FiniteRows
import RecursiveQuery.Proofs.PathSteps

/-!
# Rows drawn by steps

A step scans its relations and the rows of its fixpoint.  Where the relations
select their rows, and patterns split the rows of the fixpoint, all variables
stay inside a universe, and so each row of the step consists of values of that
universe.
-/

namespace RecursiveQuery

open Outcome (Concludes)

variable {increment : Name} {pattern : Pattern} {env : Env}

namespace StepClause

/-- The pattern of a clause and the source of its rows. -/
def scanned (increment : Name) : StepClause → Option (Pattern × Expr)
  | scan generator _ => some (generator.pattern, generator.source)
  | filter _ => none
  | recursive _ argument => some (argument, .var increment)

theorem mem_produced_of_scanned {clause : StepClause} {source : Expr}
    (isScanned : clause.scanned increment = some (pattern, source))
    {name : Name} :
    name ∈ clause.produced ↔ name ∈ pattern.occurrences := by
  cases clause with
  | scan generator residual | recursive function argument =>
      cases isScanned
      exact Pattern.mem_vars
  | filter condition => cases isScanned

end StepClause

/-- A scan of one of some clauses: its variables have kept their names or got
unused ones. -/
def Generator.IsDrawnBy (increment : Name) (used : List Name)
    (clauses : List StepClause) (part : Generator) : Prop :=
  ∃ clause ∈ clauses, ∃ pattern change,
    clause.scanned increment = some (pattern, part.source) ∧
      part.pattern = pattern.rename change ∧
      ∀ name ∈ pattern.occurrences, change name = name ∨ change name ∉ used

theorem Generator.IsDrawnBy.mono {used fewer : List Name}
    {clauses more : List StepClause} {part : Generator}
    (drawn : part.IsDrawnBy increment used clauses) (subset : fewer ⊆ used)
    (included : clauses ⊆ more) : part.IsDrawnBy increment fewer more := by
  obtain ⟨clause, isClause, pattern, change, isScanned, isPattern, changed⟩ :=
    drawn
  refine ⟨clause, included isClause, pattern, change, isScanned, isPattern, ?_⟩
  intro name occurs
  exact (changed name occurs).imp_right fun unused isUsed =>
    unused (subset isUsed)

theorem Pattern.SetApart.isDrawnBy {inScope : List Name}
    {supply later : NameSupply} {result : Pattern}
    {renames : List (Name × Name)} {equations : List Expr} {clause : StepClause}
    {clauses : List StepClause} {part : Generator}
    (apart : pattern.SetApart inScope supply result renames equations later)
    (isClause : clause ∈ clauses)
    (isScanned : clause.scanned increment = some (pattern, part.source))
    (isResult : part.pattern = result) :
    part.IsDrawnBy increment supply.used clauses := by
  refine ⟨clause, isClause, pattern, Name.renamed renames, isScanned,
    isResult.trans apart.result, ?_⟩
  intro name occurs
  rcases apart.cases occurs with ⟨_, isRename⟩ | ⟨_, same⟩
  · exact .inr (apart.new _ isRename)
  · exact .inl same

namespace StepCase

theorem renameClauses_ends (renames : List (Name × Name)) (clauses : List Expr)
    (supply : NameSupply) :
    (Scope.renameClauses renames clauses).Ensures supply fun _ _ => True := by
  have renamed := @Scope.renameClauses_ensures (fun _ _ _ => True)
    (fun _ _ _ _ _ given => given)
    renames clauses supply fun clause _ later _ =>
      (clause.substitute_carries (.ofRenames renames) later).mono
      fun _ _ _ _ => trivial
  exact renamed.mono fun _ _ _ _ => trivial

/-- Each scan of a step is drawn by one of its clauses. -/
theorem scansOf_drawn (increment : Name) (clauses : List StepClause)
    (inScope : List Name) (supply : NameSupply) :
    (scansOf increment id clauses inScope).Ensures supply fun result _ =>
      ∃ parts : List Generator, result.1 = parts.map Generator.scan ∧
        ∀ part ∈ parts, part.IsDrawnBy increment supply.used clauses := by
  induction clauses generalizing inScope supply with
  | nil => exact .pure ⟨[], rfl, List.forall_mem_nil _⟩
  | cons clause clauses induction =>
      -- The scans of later clauses are drawn behind the one of this clause.
      have behind {later : NameSupply} (grown : supply.used ⊆ later.used)
        {first : Generator}
          (isDrawn : first.IsDrawnBy increment supply.used (clause :: clauses))
          {parts : List Generator}
          (drawn : ∀ part ∈ parts,
            part.IsDrawnBy increment later.used clauses) :
          ∀ part ∈ first :: parts,
          part.IsDrawnBy increment supply.used (clause :: clauses) := by
        rw [List.forall_mem_cons]
        refine ⟨isDrawn, ?_⟩
        intro part isPart
        exact (drawn part isPart).mono grown (List.subset_cons_self _ _)
      cases clause with
      | filter condition =>
          apply Naming.Ensures.bind (induction inScope supply)
          intro result later _ scanned
          obtain ⟨parts, areScans, drawn⟩ := scanned
          refine .pure ⟨parts, areScans, ?_⟩
          intro part isPart
          exact (drawn part isPart).mono (List.Subset.refl _)
            (List.subset_cons_self _ _)
      | scan generator residual =>
          apply Naming.Ensures.bind
            (generator.pattern.renameClashes_setApart inScope supply)
          intro renamed second grown apart
          obtain ⟨pattern, renames, equations⟩ := renamed
          apply Naming.Ensures.bind (renameClauses_ends renames residual second)
          intro conditions third grownThird _
          apply Naming.Ensures.bind (induction (inScope ++ pattern.vars) third)
          intro result last _ scanned
          obtain ⟨parts, areScans, drawn⟩ := scanned
          let first : Generator := { generator with pattern := pattern }
          refine .pure ⟨first :: parts, congrArg (first.scan :: ·) areScans, ?_⟩
          have isDrawn : first.IsDrawnBy increment supply.used
              (.scan generator residual :: clauses) :=
            apart.isDrawnBy List.mem_cons_self rfl rfl
          exact behind (List.Subset.trans grown grownThird) isDrawn drawn
      | recursive function argument =>
          apply Naming.Ensures.bind
            (argument.renameClashes_setApart inScope supply)
          intro renamed second grown apart
          obtain ⟨pattern, renames, equations⟩ := renamed
          apply Naming.Ensures.bind (induction (inScope ++ pattern.vars) second)
          intro result last _ scanned
          obtain ⟨parts, areScans, drawn⟩ := scanned
          let first : Generator := ⟨pattern, .var increment, .list, .finite⟩
          refine .pure ⟨first :: parts, congrArg (first.scan :: ·) areScans, ?_⟩
          exact behind grown (apart.isDrawnBy List.mem_cons_self rfl rfl) drawn

/-- A body has scans that are drawn by the clauses of a step. -/
def IsDrawnIn (goals : List Name) (increment : Name) (used : List Name)
    (case : StepCase) (body : Expr) : Prop :=
  ∃ (parts : List Generator) (conditions : List Expr),
    body = .collect
      (.filtered (parts.map Generator.scan) conditions (.row goals)) ∧
      ∀ part ∈ parts, part.IsDrawnBy increment used case.clauses

theorem body_drawn (case : StepCase) (goals : List Name)
    (found increment : Name) (supply : NameSupply) :
    (case.body (.row goals) found increment none).Ensures supply fun body _ =>
      case.IsDrawnIn goals increment supply.used body := by
  rw [body]
  change (scansOf increment (sourceOf found none) case.clauses []
    >>= _).Ensures _ _
  rw [sourceOf_none]
  apply Naming.Ensures.bind (scansOf_drawn increment case.clauses [] supply)
  intro result later _ scanned
  obtain ⟨scans, conditions⟩ := result
  obtain ⟨parts, areScans, drawn⟩ := scanned
  cases areScans
  exact .pure ⟨parts, conditions, rfl, drawn⟩

end StepCase

/-- The bodies of a step function draw the scans of all steps, under new names
for the rows found so far and the last increment. -/
structure Recursion.IsDrawn (settings : Settings) (names : List Name)
    (found increment : Name) (bodies : List Expr) (recursion : Recursion) :
    Prop where
  among : ∀ case ∈ recursion.steps, ∀ clause ∈ case.clauses,
    clause.IsAmong names
  covered : ∀ case ∈ recursion.steps, recursion.goals ⊆
    case.clauses.flatMap StepClause.produced
  foundNew : found ∉ names
  incrementNew : increment ∉ found :: names
  bodies : List.Forall₂
    (fun case body => (recursion.stepOf settings found case).IsDrawnIn
    recursion.goals increment (increment :: found :: names) body)
    recursion.steps bodies

theorem Recursion.plan_draws {recursion : Recursion} {supply : NameSupply}
    (among : ∀ case ∈ recursion.steps, ∀ clause ∈ case.clauses,
      clause.IsAmong supply.used)
    (covered : ∀ case ∈ recursion.steps,
      recursion.goals ⊆ case.clauses.flatMap StepClause.produced)
      (settings : Settings) :
    (recursion.plan settings).Ensures supply fun fixpoint _ =>
    ∃ found increment bodies,
      recursion.IsDrawn settings supply.used found increment bodies ∧
      fixpoint.source = recursion.iteration found increment bodies := by
  apply (@plan_ensures settings recursion (fun found increment case body =>
    (recursion.stepOf settings found case).IsDrawnIn recursion.goals increment
      (increment :: found :: supply.used) body) supply _).mono
  · intro fixpoint later _ planned
    obtain ⟨found, increment, bodies, foundNew, incrementNew, isFixpoint,
      drawn⟩ := planned
    exact ⟨found, increment, bodies,
      ⟨among, covered, foundNew, incrementNew, drawn⟩, isFixpoint⟩
  · intro found increment _ _ case _ later reserved
    rw [StepCase.body_scanning]
    apply (StepCase.body_drawn _ recursion.goals found increment later).mono
    intro body last _ drawn
    obtain ⟨parts, conditions, isBody, areDrawn⟩ := drawn
    refine ⟨parts, conditions, isBody, ?_⟩
    intro part isPart
    exact (areDrawn part isPart).mono reserved (List.Subset.refl _)

/-! ## Variables in a universe -/

/-- The pattern takes rows apart, unless these are of one component. -/
def Pattern.Splits (count : Nat) (pattern : Pattern) : Prop :=
  ∀ name, pattern = .var name → count = 1

theorem Pattern.Splits.rename {count : Nat} {pattern : Pattern}
    (splits : pattern.Splits count) (change : Name → Name) :
    (pattern.rename change).Splits count := by
  intro name isVar
  cases pattern with
  | var other => exact splits other rfl
  | _ => cases isVar

section Universe

variable {given : List Value} {inside : Value → Prop}
  (isUniverse : Value.IsUniverse given inside)

include isUniverse

theorem Value.IsUniverse.inside_of_bind {row : Value} {inner : Env}
    (isInside : inside row) (binds : pattern.bind row env = some inner)
    {name : Name} (occurs : name ∈ pattern.occurrences) {value : Value}
    (found : inner.lookup name = some value) : inside value :=
  Pattern.holds_of_bind (fun items => isUniverse.children (.tuple items))
    isInside binds occurs found

/-- The variables of a pattern that splits rows stay inside. -/
theorem Pattern.Splits.inside_of_bind {count : Nat} {pattern : Pattern}
    (splits : pattern.Splits count) {row : Value}
    (isRow : row.IsRowOf inside count) {env inner : Env}
    (binds : pattern.bind row env = some inner) {name : Name}
    (occurs : name ∈ pattern.occurrences) {value : Value}
    (found : inner.lookup name = some value) : inside value := by
  rcases isRow with isInside | ⟨several, items, _, areInside, isTuple⟩
  · exact isUniverse.inside_of_bind isInside binds occurs found
  · subst isTuple
    cases pattern with
    | wildcard => cases occurs
    | literal expected => cases occurs
    | var other => exact absurd (splits other rfl) several
    | tuple patterns =>
        exact Pattern.holds_of_bindList
          (fun items => isUniverse.children (.tuple items)) areInside
          binds occurs found

end Universe

/-- A source whose rows stay inside each universe above some values, or a
variable with rows of the fixpoint that the pattern splits. -/
def Expr.Feeds (session : Session) (names produced : List Name)
    (given : List Value) (count : Nat) (rounds : List Name) (pattern : Pattern)
    (source : Expr) : Prop :=
  (source.freeVars ⊆ names ∧ source.YieldsWithin session produced given) ∨
    ∃ name ∈ rounds, source = .var name ∧ pattern.Splits count

/-- What a round knows: what has been produced stays inside, and so do the
components of the rows of the fixpoint. -/
structure Env.InRound (inside : Value → Prop) (names produced : List Name)
    (count : Nat) (rounds : List Name) (env : Env) : Prop where
  draws : env.Draws inside produced names
  rows : ∀ name ∈ rounds, ∃ kind rows, env.lookup name =
    some (.collection kind rows) ∧ ∀ row ∈ rows, row.IsRowOf inside count

section Rounds

variable {session : Session} {names rounds used : List Name}
  {given : List Value}
  {count : Nat} {increment : Name} {clauses : List StepClause}
    {inside : Value → Prop}

/-- The clauses of a step stay inside each universe above some values. -/
structure StepClause.StayWithin (session : Session) (names : List Name)
    (given : List Value) (count : Nat) (rounds : List Name) (increment : Name)
    (clauses : List StepClause) : Prop where
  occurrences : ∀ clause ∈ clauses, ∀ pattern source,
    clause.scanned increment = some (pattern, source) →
      pattern.occurrences ⊆ names
  feeds : ∀ clause ∈ clauses, ∀ pattern source,
    clause.scanned increment = some (pattern, source) →
      source.Feeds session names (clauses.flatMap StepClause.produced) given
        count rounds pattern

variable (stay :
  StepClause.StayWithin session names given count rounds increment clauses)
  (isUniverse : Value.IsUniverse (session.globalValues ++ given) inside)
  (reserved : names ++ rounds ⊆ used) (apart : ∀ name ∈ rounds, name ∉ names)

include stay isUniverse reserved apart

/-- A scan that is drawn by a clause leads on inside the universe. -/
theorem Env.InRound.scans {part : Generator}
    (drawn : part.IsDrawnBy increment used clauses) {site : Site}
    (started : Session.Started site) {env inner : Env}
    (inRound : env.InRound inside names (clauses.flatMap StepClause.produced)
      count rounds) (scans : part.Scans session site env inner) :
    inner.InRound inside names (clauses.flatMap StepClause.produced) count
      rounds := by
  obtain ⟨clause, isClause, pattern, change, isScanned, isPattern, changed⟩ :=
    drawn
  obtain ⟨kind, rows, row, evaluated, member, binds⟩ := scans
  have patternAmong :=
    stay.occurrences clause isClause pattern part.source isScanned
  -- Whatever is bound under a name in use has kept its name.
  have kept {name : Name} (occurs : name ∈ part.pattern.occurrences)
    (isUsed : name ∈ used) : name ∈ pattern.occurrences := by
    rw [isPattern, Pattern.occurrences_rename] at occurs
    obtain ⟨old, isOld, isNew⟩ := List.mem_map.mp occurs
    subst isNew
    rcases changed old isOld with same | unused
    · rwa [same]
    · exact absurd isUsed unused
  have isInside {name : Name} (occurs : name ∈ part.pattern.occurrences)
    {value : Value}
      (found : inner.lookup name = some value) : inside value := by
    rcases stay.feeds clause isClause pattern part.source isScanned with
      ⟨sourceAmong, within⟩ | ⟨round, isRound, isVar, splits⟩
    · have rowInside := within inside isUniverse env site kind rows
        (inRound.draws.mono sourceAmong) started evaluated row member
      exact isUniverse.inside_of_bind rowInside binds occurs found
    · obtain ⟨roundKind, roundRows, isBound, areRows⟩ :=
        inRound.rows round isRound
      rw [isVar] at evaluated
      cases (Session.lookup_of_env isBound).symm.trans evaluated
      apply (isPattern ▸ splits.rename change :
        part.pattern.Splits count).inside_of_bind isUniverse
        (areRows row member) binds occurs found
  constructor
  · intro name isName value found
    by_cases occurs : name ∈ part.pattern.occurrences
    · have isOld := kept occurs (reserved (List.mem_append_left _ isName))
      refine ⟨List.mem_flatMap.mpr ⟨clause, isClause, ?_⟩,
        isInside occurs found⟩
      exact (StepClause.mem_produced_of_scanned isScanned).mpr isOld
    · rw [Pattern.lookup_of_bind binds occurs] at found
      exact inRound.draws name isName value found
  · intro name isRound
    have absent : name ∉ part.pattern.occurrences := by
      intro occurs
      exact apart name isRound
        (patternAmong
          (kept occurs (reserved (List.mem_append_right _ isRound))))
    rw [Pattern.lookup_of_bind binds absent]
    exact inRound.rows name isRound

/-- Scans that are drawn by clauses never leave the universe. -/
theorem Env.InRound.reaches {parts : List Generator}
    (drawn : ∀ part ∈ parts, part.IsDrawnBy increment used clauses)
    {env last : Env}
    (inRound : env.InRound inside names (clauses.flatMap StepClause.produced)
      count rounds)
    (reaches : Generator.Reaches session parts env last) :
    last.InRound inside names (clauses.flatMap StepClause.produced) count
      rounds := by
  induction reaches with
  | nil => exact inRound
  | cons started scans _ induction =>
      rw [List.forall_mem_cons] at drawn
      exact induction drawn.2
        (inRound.scans stay isUniverse reserved apart drawn.1 started scans)

end Rounds

/-- A row of variables that stay inside consists of values inside. -/
theorem Session.isRowOf_of_row {session : Session} {inside : Value → Prop}
    (isUniverse : Value.IsUniverse session.globalValues inside) {site : Site}
    {goals : List Name}
    (bound : ∀ name ∈ goals, ∀ value, env.lookup name = some value →
      inside value)
    {row : Value} (evaluated : session.evalIn site env (.row goals) = .ok row) :
    row.IsRowOf inside goals.length := by
  have items {names : List Name} {site : Site} {values : List Value}
      (bound : ∀ name ∈ names, ∀ value, env.lookup name = some value →
        inside value)
      (evaluated :
        Expr.evalList session (session.call session.limits.maxDepth) env site
        (names.map .var) = .ok values) :
      values.length = names.length ∧ ∀ value ∈ values, inside value := by
    induction names generalizing site values with
    | nil =>
        cases evaluated
        exact ⟨rfl, List.forall_mem_nil _⟩
    | cons name names induction =>
        obtain ⟨first, evaluatedFirst, rest⟩ :=
          Outcome.bind_eq_ok_iff.mp evaluated
        obtain ⟨others, evaluatedRest, areValues⟩ :=
          Outcome.bind_eq_ok_iff.mp rest
        cases areValues
        rw [List.forall_mem_cons] at bound
        obtain ⟨length, areInside⟩ := induction bound.2 evaluatedRest
        refine ⟨congrArg Nat.succ length, ?_⟩
        rw [List.forall_mem_cons]
        exact ⟨inside_of_lookup isUniverse bound.1 evaluatedFirst, areInside⟩
  rcases goals with _ | ⟨name, _ | ⟨second, rest⟩⟩
  · cases evaluated
    exact .inl (isUniverse.atoms _ .unit)
  · exact .inl
      (inside_of_lookup isUniverse (bound name List.mem_cons_self) evaluated)
  · obtain ⟨values, evaluatedItems, isRow⟩ :=
      Outcome.bind_eq_ok_iff.mp evaluated
    cases isRow
    obtain ⟨length, areInside⟩ := items bound evaluatedItems
    exact .inr ⟨by simp, values, length, areInside, rfl⟩

/-- The rows of a step consist of values inside the universe, if the rows of the
fixpoint do. -/
theorem StepCase.IsDrawnIn.isRowOf {session : Session}
    {goals names rounds used : List Name} {case : StepCase} {body : Expr}
    {given : List Value} {inside : Value → Prop}
    (drawn : case.IsDrawnIn goals increment used body)
    (stay : StepClause.StayWithin session names given goals.length rounds
      increment case.clauses)
    (isUniverse : Value.IsUniverse (session.globalValues ++ given) inside)
    (reserved : names ++ rounds ⊆ used) (apart : ∀ name ∈ rounds, name ∉ names)
    (goalsAmong : goals ⊆ names)
    (inRound : env.InRound inside names
      (case.clauses.flatMap StepClause.produced) goals.length
      rounds) {site : Site} (started : Session.Started site)
    {kind : CollectionKind} {rows : List Value}
    (evaluated : session.evalIn site env body = .ok (.collection kind rows)) :
    ∀ row ∈ rows, row.IsRowOf inside goals.length := by
  obtain ⟨parts, conditions, isBody, areDrawn⟩ := drawn
  subst isBody
  intro row member
  obtain ⟨last, place, reaches, _, _, evaluatedRow⟩ :=
    @Generator.exists_reaches_of_join_row session env site conditions parts
      goals kind rows started evaluated row member
  have inside := inRound.reaches stay isUniverse reserved apart areDrawn reaches
  apply Session.isRowOf_of_row (isUniverse.mono (List.subset_append_left _ _)) _
    evaluatedRow
  intro name isGoal value found
  exact (inside.draws name (goalsAmong isGoal) value found).2

end RecursiveQuery
