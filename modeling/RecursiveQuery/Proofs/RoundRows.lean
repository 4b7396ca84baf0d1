import RecursiveQuery.Proofs.StepSources

/-!
# Rows of rounds

The rows of each round of a fixpoint are those that follow by its steps from the
last increment.  So all rows of a fixpoint have what the base rows have and what
the steps keep, and what follows from a row of the fixpoint belongs to the
fixpoint.
-/

namespace RecursiveQuery

variable {row : Value}

namespace Env

theorem isFunctionFree_nil : Env.IsFunctionFree [] := by
  intro name value found
  cases found

variable {kind : CollectionKind} {found increment : Name} {old new : List Value}

theorem lookup_ofRound_increment :
    (ofRound kind found increment old new).lookup increment =
    some (.collection kind new) :=
  List.lookup_cons_self

theorem lookup_ofRound_found (different : increment ≠ found) :
    (ofRound kind found increment old new).lookup found =
    some (.collection kind old) := by
  have unequal : (found == increment) = false := by simpa using different.symm
  rw [ofRound, List.lookup_cons, unequal]
  exact List.lookup_cons_self

theorem lookup_ofRound_other {name : Name} (notIncrement : name ≠ increment)
    (notFound : name ≠ found) :
    (ofRound kind found increment old new).lookup name = none := by
  have unequal : (name == increment) = false := by simpa using notIncrement
  have different : (name == found) = false := by simpa using notFound
  rw [ofRound, List.lookup_cons, unequal]
  dsimp only
  rw [List.lookup_cons, different]
  rfl

theorem isFunctionFree_ofRound
    (oldPlain : ∀ row ∈ old, row.toExpr?.isSome = true)
    (newPlain : ∀ row ∈ new, row.toExpr?.isSome = true) :
    (ofRound kind found increment old new).IsFunctionFree := by
  intro name value isValue
  have free {rows : List Value}
    (plain : ∀ row ∈ rows, row.toExpr?.isSome = true) :
      (Value.collection kind rows).isFunctionFree = true :=
    Value.areFunctionFree_iff.mpr fun row member =>
      Value.isFunctionFree_of_plain (plain row member)
  rcases List.mem_cons.mp (NameMap.mem_of_lookup isValue) with
    isIncrement | isFound
  · cases isIncrement
    exact free newPlain
  · cases List.mem_singleton.mp isFound
    exact free oldPlain

end Env

/-- Rows without bags and functions that are listed are there. -/
theorem Listed.mem {rows : List Value} (listed : Listed rows row)
    (isPlain : row.toExpr?.isSome = true) : row ∈ rows := by
  obtain ⟨other, member, alike⟩ := listed
  exact Value.eq_of_alike isPlain alike ▸ member

namespace Recursion

/-- Steps over rows without bags and functions that can be scanned clause by
clause. -/
structure IsPlain (session : Session) (names : List Name)
    (recursion : Recursion) : Prop where
  uniform : session.Uniform
  regular : ∀ case ∈ recursion.steps, case.Regular names recursion.goals
  plain : ∀ case ∈ recursion.steps, ∀ generator residual,
    .scan generator residual ∈ case.clauses →
      session.YieldsPlainly [] generator.source

/-- A fixpoint of the steps of a recursion leads from some rows to others. -/
structure Iterates (session : Session) (settings : Settings) (names : List Name)
    (recursion : Recursion) (found increment : Name) (kind : CollectionKind)
    (base result : List Value) : Prop where
  found_new : found ∉ names
  increment_new : increment ∉ found :: names
  reached : ∃ bodies site,
    List.Forall₂
      (fun case body => (recursion.stepOf settings found case).IsRealizedBy
      recursion.goals (found :: names) increment body) recursion.steps bodies ∧
    Session.Started site ∧
    fixpoint (session.stepRows kind found increment (concatenated bodies) site)
      session.limits.rounds base = .ok result

/-- What follows in a round by a step as the fixpoint scans it. -/
def RoundDerives (session : Session) (settings : Settings)
    (recursion : Recursion) (found increment : Name) (kind : CollectionKind)
    (old new : List Value) (row : Value) : Prop :=
  ∃ case ∈ recursion.steps,
    (recursion.stepOf settings found case).Derives session recursion.goals
    (Env.ofRound kind found increment old new) new row

variable {session : Session} {settings : Settings} {names : List Name}
  {recursion : Recursion}
  {found increment : Name} {kind : CollectionKind}
    {old new base result : List Value}

section Round

variable (isPlain : recursion.IsPlain session names) (foundNew : found ∉ names)
  (incrementNew : increment ∉ found :: names)
  (oldPlain : ∀ row ∈ old, row.toExpr?.isSome = true)
  (newPlain : ∀ row ∈ new, row.toExpr?.isSome = true)
variable {case : StepCase} {generator : Generator} {residual : List Expr}

include foundNew incrementNew in
/-- No name of the steps has a value of its own in a round. -/
theorem lookup_ofRound_of_mem {name : Name} (isName : name ∈ names) :
    (Env.ofRound kind found increment old new).lookup name = none := by
  apply Env.lookup_ofRound_other
  · intro isIncrement
    exact incrementNew (isIncrement ▸ List.mem_cons_of_mem _ isName)
  · intro isFound
    exact foundNew (isFound ▸ isName)

include isPlain foundNew incrementNew oldPlain newPlain

/-- The sources of steps yield rows without bags and functions in each round. -/
theorem yieldsPlainly_ofRound (isStep : case ∈ recursion.steps)
    (isScan : .scan generator residual ∈ case.clauses) :
    session.YieldsPlainly (Env.ofRound kind found increment old new)
      generator.source := by
  apply (isPlain.plain case isStep generator residual isScan).of_agree
    isPlain.uniform (Env.isFunctionFree_ofRound oldPlain newPlain)
  intro name inSource
  have among := (isPlain.regular case isStep).among _ isScan
  rw [lookup_ofRound_of_mem foundNew incrementNew (among.2.1 inSource)]
  rfl

theorem stepOf_yieldsPlainly (isStep : case ∈ recursion.steps)
    (isScan : .scan generator residual ∈
      (recursion.stepOf settings found case).clauses) :
    session.YieldsPlainly (Env.ofRound kind found increment old new)
      generator.source := by
  obtain ⟨clause, isClause, same⟩ := List.mem_map.mp isScan
  cases clause with
  | scan original conditions =>
      cases same
      dsimp only
      rcases StepCase.sourceOf_cases found (recursion.replacedSource? settings
        case) original.source with kept | isFound
      · rw [kept]
        exact yieldsPlainly_ofRound isPlain foundNew incrementNew oldPlain
          newPlain isStep isClause
      · rw [isFound]
        have different : increment ≠ found := fun same =>
          incrementNew (same ▸ List.mem_cons_self)
        exact Session.yieldsPlainly_var
          (Session.lookup_of_env (Env.lookup_ofRound_found different)) oldPlain
  | filter condition => cases same
  | recursive function argument => cases same

/-- A step with its own sources derives in a round what it derives anyway. -/
theorem derives_ofRound_iff (isStep : case ∈ recursion.steps) :
    case.Derives session recursion.goals
      (Env.ofRound kind found increment old new) new row ↔
      case.Derives session recursion.goals [] new row := by
  have among := (isPlain.regular case isStep).among
  constructor
  · intro derives
    apply derives.congr isPlain.uniform
      (Env.isFunctionFree_ofRound oldPlain newPlain) among
    · intro generator residual isScan
      exact yieldsPlainly_ofRound isPlain foundNew incrementNew oldPlain
        newPlain isStep isScan
    · intro name isName
      rw [lookup_ofRound_of_mem foundNew incrementNew isName]
      rfl
  · intro derives
    apply derives.congr isPlain.uniform Env.isFunctionFree_nil among
      (isPlain.plain case isStep)
    intro name isName
    rw [lookup_ofRound_of_mem foundNew incrementNew isName]
    rfl

/-- The rows of a round are those that follow. -/
theorem mem_round_iff {bodies : List Expr} {site : Site} {round : Nat}
    {rows : List Value} (realized : List.Forall₂
      (fun case body => (recursion.stepOf settings found case).IsRealizedBy
      recursion.goals (found :: names) increment body) recursion.steps bodies)
    (started : Session.Started site)
    (stepped : session.stepRows kind found increment (concatenated bodies) site
      round old new = .ok rows) (row : Value) :
    row ∈ rows ↔ recursion.RoundDerives session settings found increment kind
      old new row := by
  have rowsOf := Session.rowsOf_stepRows started stepped
  have bodyRows {case : StepCase} {body : Expr}
    (isStep : case ∈ recursion.steps)
      (isBody : (recursion.stepOf settings found case).IsRealizedBy
        recursion.goals
        (found :: names) increment body) {place : Site} {given : CollectionKind}
      {part : List Value} (startedPlace : Session.Started place)
      (evaluated :
        session.evalIn place (Env.ofRound kind found increment old new) body =
        .ok (.collection given part)) :
      row ∈ part ↔
        (recursion.stepOf settings found case).Derives session recursion.goals
        (Env.ofRound kind found increment old new) new row := by
    have scanned :=
      (isPlain.regular case isStep).scanning (StepCase.sourceOf_cases found
      (recursion.replacedSource? settings case)) foundNew
    exact isBody.mem_iff_derives scanned.covered isPlain.uniform
      (Env.isFunctionFree_ofRound oldPlain newPlain)
      Env.lookup_ofRound_increment newPlain
      (fun generator residual isScan =>
        stepOf_yieldsPlainly isPlain foundNew incrementNew oldPlain
        newPlain isStep isScan) startedPlace evaluated row
  constructor
  · intro member
    obtain ⟨body, isBody, place, given, part, startedPlace, evaluated,
      inPart⟩ :=
      rowsOf.every row member
    obtain ⟨case, isStep, realizes⟩ := exists_mem_left realized isBody
    exact ⟨case, isStep,
      (bodyRows isStep realizes startedPlace evaluated).mp inPart⟩
  · intro derived
    obtain ⟨case, isStep, derives⟩ := derived
    obtain ⟨body, isBody, realizes⟩ := exists_mem_left realized.flip isStep
    obtain ⟨place, given, part, startedPlace, evaluated, subset⟩ :=
      rowsOf.each body isBody
    exact subset ((bodyRows isStep realizes startedPlace evaluated).mpr derives)

end Round

namespace Iterates

variable (iterates :
  recursion.Iterates session settings names found increment kind base result)
  (isPlain : recursion.IsPlain session names)
  (basePlain : ∀ row ∈ base, row.toExpr?.isSome = true)

include iterates isPlain basePlain

/-- What the base rows have and the rounds keep all rows have. -/
theorem forall_mem (holds : Value → Prop) (baseHolds : ∀ row ∈ base, holds row)
    (kept : ∀ old new, new ⊆ old → (∀ row ∈ old, row.toExpr?.isSome = true) →
      (∀ row ∈ old, holds row) → ∀ row,
        recursion.RoundDerives session settings found increment kind old new
          row → holds row) :
    ∀ row ∈ result, row.toExpr?.isSome = true ∧ holds row := by
  obtain ⟨bodies, site, realized, started, reached⟩ := iterates.reached
  apply fixpoint_forall_mem reached
  · intro round old new rows included both stepped row member
    have oldPlain : ∀ row ∈ old, row.toExpr?.isSome = true :=
      fun row isOld => (both row isOld).1
    have derived :=
      (mem_round_iff isPlain iterates.found_new iterates.increment_new oldPlain
      (fun row isNew => oldPlain row (included isNew)) realized started stepped
      row).mp member
    refine ⟨?_, kept old new included oldPlain
      (fun row isOld => (both row isOld).2) row derived⟩
    obtain ⟨case, _, derives⟩ := derived
    exact derives.plain
  · exact fun row member => ⟨basePlain row member, baseHolds row member⟩

theorem plain : ∀ row ∈ result, row.toExpr?.isSome = true := fun row member =>
  (iterates.forall_mem isPlain basePlain (fun _ => True) (fun _ _ => trivial)
    (fun _ _ _ _ _ _ _ => trivial) row member).1

omit isPlain in
theorem base_subset : base ⊆ result := by
  obtain ⟨bodies, site, _, _, reached⟩ := iterates.reached
  intro row member
  exact (fixpoint_listed_base reached row member).mem (basePlain row member)

/-- Each row is in the increment of a round, and what follows in that round is a
row, too. -/
theorem exists_round (member : row ∈ result) :
    ∃ old new, new ⊆ old ∧ old ⊆ result ∧ base ⊆ old ∧ row ∈ new ∧ ∀ next,
      recursion.RoundDerives session settings found increment kind old
        new next →
        next ∈ result := by
  have resultPlain := iterates.plain isPlain basePlain
  obtain ⟨bodies, site, realized, started, reached⟩ := iterates.reached
  obtain ⟨round, old, new, rows, isRound, isNew⟩ :=
    fixpoint_exists_round reached member
  refine ⟨old, new, isRound.increment_subset, isRound.found_subset, ?_,
    isNew, ?_⟩
  · intro other isBase
    exact ((listed_base other isBase).mono isRound.first_subset).mem
      (basePlain other isBase)
  · intro next derived
    have oldPlain : ∀ row ∈ old, row.toExpr?.isSome = true := fun row isOld =>
      resultPlain row (isRound.found_subset isOld)
    have inRows :=
      (mem_round_iff isPlain iterates.found_new iterates.increment_new oldPlain
      (fun row isNew => oldPlain row (isRound.increment_subset isNew))
      realized started
      isRound.stepped next).mpr derived
    obtain ⟨case, _, derives⟩ := derived
    exact (isRound.rows_listed next inRows).mem derives.plain

end Iterates

end Recursion

end RecursiveQuery
