import RecursiveQuery.Inversion.Plan
import RecursiveQuery.Proofs.CorrespondingRuns
import RecursiveQuery.Proofs.LeastFixpoint
import RecursiveQuery.Proofs.WiderLimits

/-!
# Runs of fixpoints

A fixpoint evaluates its base relation and calls its step function round by
round.  The function has one call less left than the fixpoint itself; what it
returns is returned with all calls left, too.  It appends the rows of its
bodies, so that each round has the rows of all of them.
-/

namespace RecursiveQuery

/-- What a step function knows in a round: the rows found so far and the last
increment. -/
def Env.ofRound (kind : CollectionKind) (found increment : Name)
    (old new : List Value) : Env :=
  [(increment, .collection kind new), (found, .collection kind old)]

namespace Session

variable {session : Session} {site : Site} {kind : CollectionKind}
  {found increment : Name}
  {base body : Expr}
variable {env : Env} {value : Value} {round : Nat} {rows : List Value}
  {given : CollectionKind} {bodies : List Expr}

/-- What is evaluated with some calls left is evaluated with all of them. -/
theorem evalIn_of_left {left : Nat} (fewer : left ≤ session.limits.maxDepth)
    {expr : Expr}
    (evaluated : expr.eval session (session.call left) env site = .ok value) :
    session.evalIn site env expr = .ok value := by
  have widen : Widen (fun _ => True) session session :=
    ⟨rfl, rfl, .inl rfl, .inl rfl, Nat.le_refl _, trivial⟩
  have persists := Expr.eval_persists widen
    (call_persists widen (.inr ⟨fewer, fun _ => trivial⟩)) expr env site
  rw [evaluated] at persists
  generalize outcome :
    expr.eval session (session.call session.limits.maxDepth) env site = wide
    at persists
  cases persists with
  | ok same =>
      subst same
      exact outcome

/-- The rows of a step function in each round. -/
def stepRows (session : Session) (kind : CollectionKind)
    (found increment : Name) (body : Expr) (site : Site) : RowStep :=
  Value.rowStep (fun place rows => session.call session.limits.maxDepth
    ⟨1 :: site, .tuple [.var found, .var increment], body, []⟩ place rows) kind
    (2 :: site)

/-- The rows of a round are those of the body of the step function. -/
theorem exists_evalIn_of_stepRows {old new : List Value}
    (stepped : session.stepRows kind found increment body site round old new =
      .ok rows) :
    ∃ given, session.evalIn (round :: 2 :: site)
      (Env.ofRound kind found increment old new) body =
      .ok (.collection given rows) := by
  obtain ⟨given, called⟩ := Value.rowStep_eq_ok_iff.mp stepped
  refine ⟨given, ?_⟩
  generalize depth : session.limits.maxDepth = calls at called
  cases calls with
  | zero => cases called
  | succ left => exact evalIn_of_left (by omega) called

theorem lookup_iterate
    (undeclared : session.globals.lookup (Builtin.iterate kind).name = none) :
    session.lookup [] (Builtin.iterate kind).name =
      .ok (.builtin (.iterate kind)) := by
  rw [lookup, List.lookup_nil, undeclared]
  cases kind <;> rfl

/-- A fixpoint iterates its step function from its base relation on. -/
theorem evalIn_fixpoint
    (iterates : session.lookup [] (Builtin.iterate kind).name =
      .ok (.builtin (.iterate kind))) :
    session.evalIn site []
      (.apply (.apply (.var (Builtin.iterate kind).name) base)
      (.lambda (.tuple [.var found, .var increment]) body)) =
      (session.evalIn (1 :: 0 :: site) [] base >>= fun value =>
        value.iterate session.limits.rounds (fun place rows =>
          session.call session.limits.maxDepth
            ⟨1 :: site, .tuple [.var found, .var increment], body, []⟩ place
              rows) kind
          (2 :: site)) := by
  simp only [evalIn, Expr.eval, iterates, Outcome.ok_bind, bind_assoc]
  rfl

/-- A fixpoint that evaluates has a base relation of its kind and comes to an
end. -/
theorem exists_fixpoint_of_evalIn
    (iterates : session.lookup [] (Builtin.iterate kind).name =
      .ok (.builtin (.iterate kind)))
    (evaluated : session.evalIn site []
      (.apply (.apply (.var (Builtin.iterate kind).name) base)
      (.lambda (.tuple [.var found, .var increment]) body)) = .ok value) :
    ∃ baseRows rows, session.evalIn (1 :: 0 :: site) [] base =
      .ok (.collection kind baseRows) ∧
      fixpoint (session.stepRows kind found increment body site)
        session.limits.rounds baseRows =
        .ok rows ∧ value = .collection kind rows := by
  rw [evalIn_fixpoint iterates] at evaluated
  obtain ⟨baseValue, evaluatedBase, iterated⟩ :=
    Outcome.bind_eq_ok_iff.mp evaluated
  cases baseValue with
  | collection baseKind baseRows =>
      by_cases same : baseKind = kind
      · subst same
        obtain ⟨rows, reached, isValue⟩ := Value.iterate_eq_ok_iff.mp iterated
        exact ⟨baseRows, rows, evaluatedBase, reached, isValue.symm⟩
      · rw [Value.iterate, if_neg same] at iterated
        cases iterated
  | _ => cases iterated

/-- The rows of some expressions together, each of which is evaluated
somewhere. -/
structure RowsOf (session : Session) (env : Env) (bodies : List Expr)
    (rows : List Value) : Prop where
  each : ∀ body ∈ bodies, ∃ place given part, Started place ∧
    session.evalIn place env body = .ok (.collection given part) ∧ part ⊆ rows
  every : ∀ row ∈ rows, ∃ body ∈ bodies, ∃ place given part, Started place ∧
    session.evalIn place env body = .ok (.collection given part) ∧ row ∈ part

theorem RowsOf.single (started : Started site)
    (evaluated : session.evalIn site env body = .ok (.collection given rows)) :
    session.RowsOf env [body] rows := by
  constructor
  · intro other isBody
    rw [List.mem_singleton.mp isBody]
    exact ⟨site, given, rows, started, evaluated, List.Subset.refl _⟩
  · intro row member
    exact ⟨body, List.mem_cons_self, site, given, rows, started,
      evaluated, member⟩

theorem RowsOf.cons {env : Env} {bodies : List Expr} {given : CollectionKind}
    {part rows : List Value} (started : Started site)
    (evaluated : session.evalIn site env body = .ok (.collection given part))
    (rest : session.RowsOf env bodies rows) :
    session.RowsOf env (body :: bodies) (part ++ rows) := by
  constructor
  · rw [List.forall_mem_cons]
    refine
      ⟨⟨site, given, part, started, evaluated, List.subset_append_left _ _⟩, ?_⟩
    intro other isBody
    obtain ⟨place, kind, others, startedPlace, evaluatedOther, subset⟩ :=
      rest.each other isBody
    exact ⟨place, kind, others, startedPlace, evaluatedOther,
      List.subset_append_of_subset_right _ subset⟩
  · intro row member
    rcases List.mem_append.mp member with inPart | inRest
    · exact ⟨body, List.mem_cons_self, site, given, part, started,
        evaluated, inPart⟩
    · obtain ⟨other, isBody, found⟩ := rest.every row inRest
      exact ⟨other, List.mem_cons_of_mem _ isBody, found⟩

/-- Appended expressions have the rows of all of them. -/
theorem rowsOf_concatenated (started : Started site)
    (evaluated : session.evalIn site env (Recursion.concatenated bodies) =
      .ok (.collection given rows)) : session.RowsOf env bodies rows := by
  induction bodies generalizing site given rows with
  | nil =>
      cases evaluated
      exact ⟨List.forall_mem_nil _, List.forall_mem_nil _⟩
  | cons first rest induction =>
      cases rest with
      | nil => exact .single started evaluated
      | cons second rest =>
          obtain ⟨left, evaluatedFirst, appended⟩ :=
            Outcome.bind_eq_ok_iff.mp evaluated
          obtain ⟨right, evaluatedRest, appended⟩ :=
            Outcome.bind_eq_ok_iff.mp appended
          cases left with
          | collection leftKind leftRows =>
              cases right with
              | collection rightKind rightRows =>
                  cases appended
                  exact .cons (started.cons 0) evaluatedFirst
                    (induction (started.cons 1) evaluatedRest)
              | _ => cases appended
          | _ => cases appended

/-- The rows of a round are those of all bodies of the step function. -/
theorem rowsOf_stepRows {old new : List Value} (started : Started site)
    (stepped : session.stepRows kind found increment
      (Recursion.concatenated bodies) site round old new = .ok rows) :
    session.RowsOf (Env.ofRound kind found increment old new) bodies rows := by
  obtain ⟨given, evaluated⟩ := exists_evalIn_of_stepRows stepped
  exact rowsOf_concatenated ((started.cons 2).cons round) evaluated

end Session

end RecursiveQuery
