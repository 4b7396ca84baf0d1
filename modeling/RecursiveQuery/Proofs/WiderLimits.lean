import RecursiveQuery.Proofs.Load
import RecursiveQuery.Proofs.Outcomes

/-!
# Wider limits

A limit ends an evaluation or has no influence on it.  The evaluations under a
narrow and under a wide limit run side by side until the narrow one is cut off,
and no rule of evaluation goes on after an error, so that a result which is not
a cut-off is the result under the wide limit too.
-/

namespace RecursiveQuery

open Outcome (Follows Persists)

/-- Limits that are the same or wider, where an evaluation can tell a difference
only by a cut-off. -/
structure Limits.Widen (cut : Halt → Prop) (narrow wide : Limits) : Prop where
  depth : narrow.maxDepth = wide.maxDepth ∨
    narrow.maxDepth ≤ wide.maxDepth ∧
    ∀ limit, cut (.error (.depthExceeded limit))
  extent : narrow.extent = wide.extent ∨
    narrow.extent = none ∧ ∀ pattern, cut (.error (.unboundedScan pattern))
  rounds : narrow.rounds ≤ wide.rounds
  outOfRounds : cut .outOfRounds

/-- The same session under other limits. -/
structure Session.Widen (cut : Halt → Prop) (narrow wide : Session) : Prop where
  globals : narrow.globals = wide.globals
  declared : narrow.declared = wide.declared
  limits : Limits.Widen cut narrow.limits wide.limits

/-- Calls return the same unless one is cut off. -/
def Caller.Persists (cut : Halt → Prop) (narrow wide : Caller) : Prop :=
  ∀ closure site argument,
    Outcome.Persists cut Eq (narrow closure site argument)
      (wide closure site argument)

namespace Value

variable {cut : Halt → Prop} {narrowCall wideCall : Caller} {rounds more : Nat}

theorem iterate_persists (outOfRounds : cut .outOfRounds)
    (atLeast : rounds ≤ more) {narrow wide : Site → Value → Outcome Value}
    (steps : ∀ site rows, Persists cut Eq (narrow site rows) (wide site rows))
    (kind : CollectionKind) (base : Value) (site : Site) :
    Persists cut Eq (iterate rounds narrow kind base site)
      (iterate more wide kind base site) := by
  cases base with
  | collection baseKind rows =>
      rw [iterate, iterate]
      split
      · have sameRows : List.Forall₂ (@Eq Value) = Eq := List.forall₂_eq_eq_eq
        have keeps : KeepsEquality Eq := by
          rintro _ _ _ _ rfl rfl
          rfl
        refine (fixpoint_follows keeps (.inl ⟨atLeast, outOfRounds⟩) ?_
          (sameRows ▸ rfl)).bind ?_
        · rw [RowStep.Follows, sameRows]
          rintro round found _ increment _ rfl rfl
          exact (steps _ _).andThen fun value => .refl _
        · rw [sameRows]
          rintro result _ rfl
          exact .refl _
      · exact .refl _
  | _ => exact .refl _

/-- What one application does persists if what it passes on persists. -/
theorem applyUsing_persists (outOfRounds : cut .outOfRounds)
    (atLeast : rounds ≤ more) (calls : Caller.Persists cut narrowCall wideCall)
    {narrow wide : Value → Site → Value → Outcome Value}
    (steps : ∀ step site rows,
      Persists cut Eq (narrow step site rows) (wide step site rows))
    (function : Value) (site : Site) (argument : Value) :
    Persists cut Eq (applyUsing narrowCall rounds narrow function site argument)
      (applyUsing wideCall more wide function site argument) := by
  cases function with
  | closure target => exact calls target site argument
  | iterateOn kind base =>
      exact iterate_persists outOfRounds atLeast (steps argument) kind base site
  | builtin function => cases function <;> exact .refl _
  | _ => exact .refl _

theorem apply_persists (outOfRounds : cut .outOfRounds)
    (atLeast : rounds ≤ more) (calls : Caller.Persists cut narrowCall wideCall)
    (function : Value) (site : Site) (argument : Value) :
    Persists cut Eq (apply narrowCall rounds function site argument)
      (apply wideCall more function site argument) := by
  refine applyUsing_persists outOfRounds atLeast calls ?_ function site argument
  intro step site rows
  exact applyUsing_persists outOfRounds atLeast calls (fun _ _ _ => .refl _)
    step site rows

end Value

namespace Pattern

variable {cut : Halt → Prop} {narrow wide : Option (List Value)}

mutual

theorem extentRows_persists
    (extent : narrow = wide ∨
      narrow = none ∧ ∀ pattern, cut (.error (.unboundedScan pattern)))
    (pattern : Pattern) :
    Persists cut Eq (extentRows narrow pattern) (extentRows wide pattern) := by
  cases pattern with
  | literal value => exact .refl _
  | tuple patterns =>
      exact (extentColumns_persists extent patterns).andThen
        fun columns => .refl _
  | wildcard | var name =>
      rcases extent with rfl | ⟨rfl, unbounded⟩
      · exact .refl _
      · exact .cutOff (unbounded _)

theorem extentColumns_persists
    (extent : narrow = wide ∨
      narrow = none ∧ ∀ pattern, cut (.error (.unboundedScan pattern)))
    (patterns : List Pattern) :
    Persists cut Eq (extentColumns narrow patterns)
      (extentColumns wide patterns) := by
  cases patterns with
  | nil => exact .refl _
  | cons pattern patterns =>
      refine (extentRows_persists extent pattern).andThen fun column => ?_
      exact (extentColumns_persists extent patterns).andThen fun rest => .refl _

end

end Pattern

namespace Expr

variable {cut : Halt → Prop} {narrow wide : Session}
  {narrowCall wideCall : Caller}

mutual

/-- Evaluation persists rule by rule, if calls do. -/
theorem eval_persists (widen : Session.Widen cut narrow wide)
    (calls : Caller.Persists cut narrowCall wideCall) (expr : Expr) (env : Env)
    (site : Site) : Persists cut Eq (eval narrow narrowCall env site expr)
      (eval wide wideCall env site expr) := by
  cases expr with
  | literal value => exact .refl _
  | var name =>
      simp only [eval, Session.lookup, widen.globals]
      exact .refl _
  | tuple items | list items =>
      exact (evalList_persists widen calls items env site).andThen
        fun _ => .refl _
  | apply function argument =>
      refine (eval_persists widen calls function env _).andThen
        fun functionValue => ?_
      refine (eval_persists widen calls argument env _).andThen
        fun argumentValue => ?_
      exact Value.apply_persists widen.limits.outOfRounds widen.limits.rounds
        calls _ _ _
  | lambda param body => exact .refl _
  | andAlso left right =>
      refine (eval_persists widen calls left env _).andThen fun value => ?_
      refine (Follows.refl value.asBool).andThen fun holds => ?_
      cases holds with
      | false => exact .refl _
      | true =>
          exact (eval_persists widen calls right env _).andThen fun _ => .refl _
  | orElse left right =>
      refine (eval_persists widen calls left env _).andThen fun value => ?_
      refine (Follows.refl value.asBool).andThen fun holds => ?_
      cases holds with
      | false =>
          exact (eval_persists widen calls right env _).andThen fun _ => .refl _
      | true => exact .refl _
  | binary op left right =>
      refine (eval_persists widen calls left env _).andThen fun leftValue => ?_
      exact (eval_persists widen calls right env _).andThen
        fun rightValue => .refl _
  | collect query =>
      obtain ⟨scans, steps⟩ := query
      refine (scans_persist widen calls scans ?_ env site []).1.andThen
        fun _ => .refl _
      intro env site scanned
      exact evalSteps_persists widen calls steps env site _
  | existence query =>
      obtain ⟨scans, steps⟩ := query
      refine (scans_persist widen calls scans ?_ env site []).2.andThen
        fun _ => .refl _
      intro env site scanned
      exact evalSteps_persists widen calls steps env site _

theorem evalList_persists (widen : Session.Widen cut narrow wide)
    (calls : Caller.Persists cut narrowCall wideCall) (items : List Expr)
    (env : Env) (site : Site) :
    Persists cut Eq (evalList narrow narrowCall env site items)
      (evalList wide wideCall env site items) := by
  cases items with
  | nil => exact .refl _
  | cons item items =>
      refine (eval_persists widen calls item env _).andThen fun value => ?_
      exact (evalList_persists widen calls items env _).andThen
        fun values => .refl _

theorem evalSteps_persists (widen : Session.Widen cut narrow wide)
    (calls : Caller.Persists cut narrowCall wideCall) (steps : List Step)
    (env : Env) (site : Site) (output : Value) :
    Persists cut Eq (evalSteps narrow narrowCall env site output steps)
      (evalSteps wide wideCall env site output steps) := by
  match steps with
  | [] => exact .refl _
  | .filter condition :: steps =>
      refine (eval_persists widen calls condition env _).andThen fun value => ?_
      refine (Follows.refl value.asBool).andThen fun holds => ?_
      cases holds with
      | false => exact .refl _
      | true => exact evalSteps_persists widen calls steps env _ output
  | .yield value :: steps =>
      refine (eval_persists widen calls value env _).andThen fun output => ?_
      exact evalSteps_persists widen calls steps env _ output

theorem evalSource_persists (widen : Session.Widen cut narrow wide)
    (calls : Caller.Persists cut narrowCall wideCall) (source : Option Expr)
    (env : Env) (site : Site) (pattern : Pattern) :
    Persists cut Eq (evalSource narrow narrowCall env site pattern source)
      (evalSource wide wideCall env site pattern source) := by
  match source with
  | none =>
      exact (Pattern.extentRows_persists widen.limits.extent pattern).andThen
        fun _ => .refl _
  | some source =>
      exact (eval_persists widen calls source env site).andThen fun _ => .refl _

/-- The search for a row ends at the same row, because no row before it was cut
off. -/
theorem scans_persist (widen : Session.Widen cut narrow wide)
    (calls : Caller.Persists cut narrowCall wideCall) (scans : List Scan)
    {finish wideFinish : Env → Site → List Value → Outcome (Option Value)}
    (finishes : ∀ env site scanned,
      Persists cut Eq (finish env site scanned) (wideFinish env site scanned))
    (env : Env) (site : Site) (scanned : List Value) :
    Persists cut Eq
      (collectScans narrow narrowCall finish env site scanned scans)
        (collectScans wide wideCall wideFinish env site scanned scans) ∧
      Persists cut Eq
        (existsScans narrow narrowCall finish env site scanned scans)
        (existsScans wide wideCall wideFinish env site scanned scans) := by
  match scans with
  | [] =>
      have finished := finishes env site scanned
      exact ⟨finished.andThen fun _ => .refl _,
        finished.andThen fun _ => .refl _⟩
  | ⟨pattern, source⟩ :: scans =>
      have sources :=
        evalSource_persists widen calls source env (0 :: site) pattern
      have rest := scans_persist widen calls scans finishes
      constructor
      · refine sources.andThen fun rows => ?_
        refine (Persists.mapM_same _ ?_).andThen fun parts => .refl _
        rintro ⟨index, row, inner⟩
        exact (rest inner _ _).1
      · refine sources.andThen fun rows => Persists.anyM_same _ ?_
        rintro ⟨index, row, inner⟩
        exact (rest inner _ _).2

end

end Expr

namespace Session

variable {cut : Halt → Prop} {narrow wide : Session}

/-- Calls persist, by induction on the depth that is left under the narrow
limit. -/
theorem call_persists (widen : Widen cut narrow wide) {left more : Nat}
    (depth : left = more ∧ narrow.limits.maxDepth = wide.limits.maxDepth ∨
      left ≤ more ∧ ∀ limit, cut (.error (.depthExceeded limit))) :
    Caller.Persists cut (narrow.call left) (wide.call more) := by
  induction left generalizing more with
  | zero =>
      intro closure site argument
      rcases depth with ⟨rfl, sameDepth⟩ | ⟨_, exceeded⟩
      · rw [call, call, sameDepth]
        exact .refl _
      · exact .cutOff (exceeded _)
  | succ left induction =>
      intro closure site argument
      obtain ⟨more, rfl⟩ : ∃ fewer, more = fewer + 1 := ⟨more - 1, by omega⟩
      have calls : Caller.Persists cut (narrow.call left) (wide.call more) := by
        apply induction
        rcases depth with ⟨same, sameDepth⟩ | ⟨atLeast, exceeded⟩
        · exact .inl ⟨Nat.succ.inj same, sameDepth⟩
        · exact .inr ⟨Nat.le_of_succ_le_succ atLeast, exceeded⟩
      rw [call, call]
      split
      · exact .refl _
      · exact Expr.eval_persists widen calls _ _ _

theorem evalIn_persists (widen : Widen cut narrow wide) (site : Site)
    (env : Env) (expr : Expr) :
    Persists cut Eq (narrow.evalIn site env expr)
      (wide.evalIn site env expr) := by
  refine Expr.eval_persists widen (call_persists widen ?_) expr env site
  rcases widen.limits.depth with same | wider
  · exact .inl ⟨same, same⟩
  · exact .inr wider

namespace Widen

theorem define (widen : Widen cut narrow wide) (name : Name) (value : Value) :
    Widen cut (narrow.define name value) (wide.define name value) :=
  ⟨congrArg (NameMap.insert · name value) widen.globals, widen.declared,
    widen.limits⟩

theorem declare (widen : Widen cut narrow wide) (name : Name)
    (type : Option Ty) :
    Widen cut (narrow.declare name type) (wide.declare name type) := by
  cases type with
  | none =>
      exact ⟨widen.globals, congrArg (NameMap.erase · name) widen.declared,
        widen.limits⟩
  | some type =>
      exact ⟨widen.globals,
        congrArg (NameMap.insert · name type) widen.declared, widen.limits⟩

theorem defineFunctions (widen : Widen cut narrow wide) (decls : List Decl)
    (site : Site) :
    Widen cut (narrow.defineFunctions decls site)
      (wide.defineFunctions decls site) := by
  induction decls generalizing narrow wide site with
  | nil => exact widen
  | cons decl decls induction =>
      cases decl with
      | val name type value => exact induction widen _
      | function name param body => exact induction (widen.define name _) _

end Widen

/-- Declarations take effect in the same way under wide limits. -/
theorem runDecls_persists (widen : Widen cut narrow wide) (decls : List Decl)
    (site : Site) :
    Persists cut (Widen cut) (narrow.runDecls decls site)
      (wide.runDecls decls site) := by
  induction decls generalizing narrow wide site with
  | nil => exact .ok widen
  | cons decl decls induction =>
      match decl with
      | .val name type (some value) =>
          have declared := widen.declare name type
          rw [runDecls, runDecls]
          refine (evalIn_persists declared _ [] value).andThen fun result => ?_
          exact induction (declared.define name _) _
      | .val name type none =>
          have declared := widen.declare name type
          rw [runDecls, runDecls]
          apply induction
          exact ⟨congrArg (NameMap.erase · name) declared.globals,
            declared.declared, declared.limits⟩
      | .function name param body =>
          rw [runDecls, runDecls]
          exact induction ((widen.declare name none).define name _) _

theorem load_persists {narrow wide : Limits}
    (widen : Limits.Widen cut narrow wide) (program : Program) :
    Persists cut (Widen cut) (load program narrow) (load program wide) := by
  have start : Widen cut (empty narrow) (empty wide) := ⟨rfl, rfl, widen⟩
  exact runDecls_persists (start.defineFunctions _ _) _ _

end Session

/-- Load a program and evaluate an expression in an environment. -/
def Program.evaluate (program : Program) (limits : Limits) (site : Site)
    (env : Env) (expr : Expr) : Outcome Value := do
  let session ← Session.load program limits
  session.evalIn site env expr

theorem Program.evaluate_persists {cut : Halt → Prop} {narrow wide : Limits}
    (widen : Limits.Widen cut narrow wide) (program : Program) (site : Site)
    (env : Env) (expr : Expr) :
    Persists cut Eq (program.evaluate narrow site env expr)
      (program.evaluate wide site env expr) := by
  refine (Session.load_persists widen program).bind ?_
  intro narrowSession wideSession sessions
  exact Session.evalIn_persists sessions site env expr

/-- A result that an evaluation ends with, unless a limit cut it off, is the
result under a deeper limit of calls, and without an extent it is the result
under every extent. -/
theorem wider_limits_keep_results {program : Program} {narrow wide : Limits}
    {site : Site} {env : Env} {expr : Expr} {result : Outcome Value}
    (evaluated : program.evaluate narrow site env expr = result)
    (ended : result ≠ .error .outOfRounds)
    (rounds : narrow.rounds ≤ wide.rounds) :
    (narrow.maxDepth ≤ wide.maxDepth → narrow.extent = wide.extent →
      (∀ limit, result ≠ .fail (.depthExceeded limit)) →
        program.evaluate wide site env expr = result) ∧
    (narrow.maxDepth = wide.maxDepth → narrow.extent = none →
      (∀ pattern, result ≠ .fail (.unboundedScan pattern)) →
        program.evaluate wide site env expr = result) := by
  subst evaluated
  constructor
  · intro deeper sameExtent noDepth
    let cut : Halt → Prop := fun halt =>
      halt = .outOfRounds ∨ ∃ limit, halt = .error (.depthExceeded limit)
    have widen : Limits.Widen cut narrow wide :=
      ⟨.inr ⟨deeper, fun limit => .inr ⟨limit, rfl⟩⟩, .inl sameExtent, rounds,
        .inl rfl⟩
    refine (program.evaluate_persists widen site env expr).eq_of_not_cut ?_
    rintro _ (rfl | ⟨limit, rfl⟩)
    · exact ended
    · exact noDepth limit
  · intro sameDepth noExtent noScan
    let cut : Halt → Prop := fun halt =>
      halt = .outOfRounds ∨ ∃ pattern, halt = .error (.unboundedScan pattern)
    have widen : Limits.Widen cut narrow wide :=
      ⟨.inl sameDepth, .inr ⟨noExtent, fun pattern => .inr ⟨pattern, rfl⟩⟩,
        rounds, .inl rfl⟩
    refine (program.evaluate_persists widen site env expr).eq_of_not_cut ?_
    rintro _ (rfl | ⟨pattern, rfl⟩)
    · exact ended
    · exact noScan pattern

/-- Counting down from a number. -/
def countdown : Program :=
  ⟨[.function "down" (.var "n")
    (.orElse (.binary .lt (.var "n") (.literal (.int 1)))
      (.apply (.var "down") (.binary .sub (.var "n") (.literal (.int 1)))))]⟩

/-- The numbers down from two, where each step of a fixpoint calls a recursive
function. -/
def numbersDown : Expr :=
  .apply (.apply (.var "List.iterate") (.list [.var "start"]))
    (.lambda (.tuple [.var "old", .var "new"])
      (.collect ⟨[⟨.var "n", some (.var "new")⟩],
        [.filter (.andAlso (.binary .lt (.literal (.int 0)) (.var "n"))
            (.apply (.var "down") (.var "n"))),
          .yield (.binary .sub (.var "n") (.literal (.int 1)))]⟩))

/-- Four nested calls are enough for the numbers from two, and an extent is of
no use to them. -/
theorem wider_limits_keep_results_countdown :
    let numbers : Outcome Value :=
      .ok (.collection .list [.int 2, .int 1, .int 0])
    let evaluate limits :=
      countdown.evaluate limits (Session.root 0) [("start", .int 2)] numbersDown
    evaluate { maxDepth := 4 } = numbers ∧ evaluate {} = numbers ∧
      evaluate { maxDepth := 4, extent := some [.int 7] } = numbers := by
  intro numbers evaluate
  have evaluated : evaluate { maxDepth := 4 } = numbers := by
    rfl
  have ended : numbers ≠ .error .outOfRounds := nofun
  have deeper :=
    @wider_limits_keep_results countdown { maxDepth := 4 } {} _ _ _ _
    evaluated ended (Nat.le_refl _)
  have extended := @wider_limits_keep_results countdown { maxDepth := 4 }
    { maxDepth := 4, extent := some [.int 7] } _ _ _ _ evaluated ended
      (Nat.le_refl _)
  exact ⟨evaluated, deeper.1 (by decide) rfl nofun, extended.2 rfl rfl nofun⟩

end RecursiveQuery
