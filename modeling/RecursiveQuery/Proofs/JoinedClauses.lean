import RecursiveQuery.Proofs.ClauseInversion
import RecursiveQuery.Proofs.JoinedScans

/-!
# Joined clauses

Clauses are inverted from left to right, and each adds a generator or a residual
condition.  What has been joined always stands for the clauses so far: where
they are all true, rows of the generators lead to the right values, and where
rows reach the right values and the conditions hold, none of the clauses is
false.
-/

namespace RecursiveQuery

variable {name : Name}

namespace Value

mutual

/-- Only bags and functions are equal to values of another form. -/
theorem eq_of_alike {value plain : Value}
    (isPlain : plain.toExpr?.isSome = true) (alike : value.Alike plain) :
    value = plain := by
  cases plain with
  | tuple items =>
      rw [toExpr?, Option.isSome_map] at isPlain
      cases value with
      | tuple others =>
          exact congrArg tuple
            (eq_of_alike_items isPlain (sameList_iff.mp alike))
      | _ => simp [Alike, same] at alike
  | collection kind rows =>
      cases kind with
      | bag => cases isPlain
      | list =>
          rw [toExpr?, Option.isSome_map] at isPlain
          cases value with
          | collection otherKind others =>
              cases otherKind with
              | bag => simp [Alike, same] at alike
              | list =>
                  exact congrArg (collection .list)
                    (eq_of_alike_items isPlain (sameList_iff.mp alike))
          | _ => simp [Alike, same] at alike
  | closure target => cases isPlain
  | builtin name => cases isPlain
  | iterateOn kind base => cases isPlain
  | _ => cases value <;> simp_all [Alike, same]

theorem eq_of_alike_items {values plain : List Value}
    (arePlain : (toExprs? plain).isSome = true)
    (alike : List.Forall₂ Alike values plain) : values = plain := by
  cases plain with
  | nil => exact List.forall₂_nil_right_iff.mp alike
  | cons item items =>
      obtain ⟨first, rest, alikeFirst, alikeRest, rfl⟩ :=
        List.forall₂_cons_right_iff.mp alike
      rw [toExprs?] at arePlain
      split at arePlain
      · next expr exprs foundFirst foundRest =>
          rw [eq_of_alike (Option.isSome_of_eq_some foundFirst) alikeFirst,
            eq_of_alike_items (Option.isSome_of_eq_some foundRest) alikeRest]
      · cases arePlain

end

end Value

namespace Session

variable {session : Session} {env other : Env}
variable {first : List Expr} {holds : Bool}

/-- Clauses are evaluated in turn up to the first one that is false. -/
inductive InTurn (session : Session) (env : Env) : List Expr → Bool → Prop where
  | nil : InTurn session env [] true
  | stop {clause : Expr} {clauses : List Expr} {site : Site} :
      Started site → session.evalIn site env clause = .ok (.bool false) →
      InTurn session env (clause :: clauses) false
  | next {clause : Expr} {clauses : List Expr} {site : Site} {holds : Bool} :
      Started site → session.evalIn site env clause = .ok (.bool true) →
      InTurn session env clauses holds →
        InTurn session env (clause :: clauses) holds

theorem InTurn.append {second : List Expr}
    (firstTrue : InTurn session env first true)
    (rest : InTurn session env second holds) :
    InTurn session env (first ++ second) holds := by
  induction first with
  | nil => exact rest
  | cons clause clauses induction =>
      cases firstTrue with
      | next started evaluated later =>
          exact .next started evaluated (induction later)

theorem InTurn.append_of_false (firstFalse : InTurn session env first false)
    (second : List Expr) : InTurn session env (first ++ second) false := by
  induction first with
  | nil => cases firstFalse
  | cons clause clauses induction =>
      cases firstFalse with
      | stop started evaluated => exact .stop started evaluated
      | next started evaluated later =>
          exact .next started evaluated (induction later)

theorem InTurn.of_snoc {clauses : List Expr} {clause : Expr}
    (inTurn : InTurn session env (clauses ++ [clause]) holds) :
    (InTurn session env clauses false ∧ holds = false) ∨
      (InTurn session env clauses true ∧
        ∃ site, Started site ∧
        session.evalIn site env clause = .ok (.bool holds)) := by
  induction clauses with
  | nil =>
      cases inTurn with
      | stop started evaluated => exact .inr ⟨.nil, _, started, evaluated⟩
      | next started evaluated rest =>
          cases rest
          exact .inr ⟨.nil, _, started, evaluated⟩
  | cons first clauses induction =>
      cases inTurn with
      | stop started evaluated => exact .inl ⟨.stop started evaluated, rfl⟩
      | next started evaluated rest =>
          rcases induction rest with ⟨isFalse, equality⟩ | ⟨isTrue, last⟩
          · exact .inl ⟨.next started evaluated isFalse, equality⟩
          · exact .inr ⟨.next started evaluated isTrue, last⟩

/-- The conjuncts of a condition are evaluated in turn. -/
theorem inTurn_conjuncts {term : Expr} {site : Site} (started : Started site)
    (evaluated : session.evalIn site env term = .ok (.bool holds)) :
    InTurn session env term.conjuncts holds := by
  fun_induction Expr.conjuncts term generalizing site holds with
  | case1 left right leftInduction rightInduction =>
      rcases evalIn_andAlso_iff.mp evaluated with
        ⟨leftFalse, isFalse⟩ | ⟨leftTrue, rightHolds⟩
      · subst isFalse
        exact (leftInduction (started.cons 0) leftFalse).append_of_false _
      · exact (leftInduction (started.cons 0) leftTrue).append
          (rightInduction (started.cons 1) rightHolds)
  | case2 term =>
      cases holds with
      | false => exact .stop started evaluated
      | true => exact .next started evaluated .nil

theorem lookup_congr (same : other.lookup name = env.lookup name) :
    session.lookup other name = session.lookup env name := by
  rw [lookup, lookup, same]

/-- An equation between variables holds wherever these have the same values. -/
theorem holds_of_isEquation {equation : Expr}
    (isEquation : Pattern.IsEquation equation)
    (same : ∀ name ∈ equation.freeVars, other.lookup name = env.lookup name)
    (held : session.Held env equation) : session.Holds other equation := by
  obtain ⟨target, name, rfl⟩ := isEquation
  obtain ⟨site, _, evaluated⟩ := held
  have sameTarget := same target List.mem_cons_self
  have sameName := same name (List.mem_cons_of_mem _ List.mem_cons_self)
  intro site' _
  simp only [evalIn, Expr.equals, Expr.eval] at evaluated ⊢
  rw [lookup_congr sameTarget, lookup_congr sameName, evaluated]

end Session

namespace Scope

variable {scope : Scope} {program : Program} {names : List Name}
  {generator : Generator}
  {name : Name}

/-- The names that no further generator gives a value: those that are bound, and
the declarations that the clauses use. -/
def Fixes (scope : Scope) (program : Program) (names : List Name)
    (name : Name) : Prop :=
  scope.isBound name = true ∨
    (name ∈ names ∧ scope.isGlobal program name = true)

theorem isGlobal_produce :
    (scope.produce generator).isGlobal program name = true ↔
      scope.isGlobal program name = true ∧
      name ∉ generator.pattern.occurrences := by
  have absent : generator.pattern.vars.contains name = false ↔
      name ∉ generator.pattern.occurrences := by
    rw [← Bool.not_eq_true, List.contains_iff_mem, Pattern.mem_vars]
  simp only [isGlobal, isGoal, goals_produce, isBound_produce, Bool.and_eq_true,
    Bool.not_eq_true', Bool.or_eq_false_iff, absent]
  tauto

/-- A generator that binds neither bound names nor declarations leaves their
values alone. -/
def Extends (scope : Scope) (program : Program) (names : List Name)
    (generator : Generator) : Prop :=
  ∀ name ∈ generator.pattern.occurrences, ¬ scope.Fixes program names name

theorem Extends.fixes (extending : scope.Extends program names generator)
    (fixed : scope.Fixes program names name) :
    (scope.produce generator).Fixes program names name := by
  rcases fixed with isBound | ⟨member, isGlobal⟩
  · exact .inl (isBound_produce_iff.mpr (.inl isBound))
  · refine .inr ⟨member, isGlobal_produce.mpr ⟨isGlobal, ?_⟩⟩
    exact fun occurs => extending name occurs (.inr ⟨member, isGlobal⟩)

theorem Extends.lookup (extending : scope.Extends program names generator)
    {row : Value} {env inner : Env}
    (binds : generator.pattern.bind row env = some inner)
    (fixed : scope.Fixes program names name) :
    inner.lookup name = env.lookup name :=
  Pattern.lookup_of_bind binds fun occurs => extending name occurs fixed

end Scope

namespace Inversion

namespace Valued

variable {program : Program} {scope : Scope} {names : List Name}
  {env bound other : Env}

theorem congr (valued : Valued program scope names env bound)
    (same : ∀ name, scope.Fixes program names name →
      other.lookup name = bound.lookup name) :
    Valued program scope names env other := by
  refine ⟨?_, ?_, valued.functionFree⟩
  · intro name member isBound
    rw [same name (.inl isBound)]
    exact valued.shared name member isBound
  · intro name member isGlobal
    rw [same name (.inr ⟨member, isGlobal⟩)]
    exact valued.global name member isGlobal

variable {generator : Generator} {row : Value} {inner : Env}

/-- The values after a generator are right if those that it binds are. -/
theorem produce (valued : Valued program scope names env bound)
    (extending : scope.Extends program names generator)
    (binds : generator.pattern.bind row bound = some inner)
    (right : ∀ name ∈ names, name ∈ generator.pattern.occurrences →
      ∃ value, env.lookup name = some value ∧ inner.lookup name = some value) :
    Valued program (scope.produce generator) names env inner := by
  refine ⟨?_, ?_, valued.functionFree⟩
  · intro name member isBound
    rcases Scope.isBound_produce_iff.mp isBound with wasBound | occurs
    · rw [extending.lookup binds (.inl wasBound)]
      exact valued.shared name member wasBound
    · exact right name member occurs
  · intro name member isGlobal
    have wasGlobal := (Scope.isGlobal_produce.mp isGlobal).1
    rw [extending.lookup binds (.inr ⟨member, wasGlobal⟩)]
    exact valued.global name member wasGlobal

theorem of_produce
    (valued : Valued program (scope.produce generator) names env inner)
    (extending : scope.Extends program names generator)
    (binds : generator.pattern.bind row bound = some inner) :
    Valued program scope names env bound := by
  refine ⟨?_, ?_, valued.functionFree⟩
  · intro name member isBound
    rw [← extending.lookup binds (.inl isBound)]
    exact valued.shared name member
      (Scope.isBound_produce_iff.mpr (.inl isBound))
  · intro name member isGlobal
    have fixed : scope.Fixes program names name := .inr ⟨member, isGlobal⟩
    rw [← extending.lookup binds fixed]
    refine valued.global name member (Scope.isGlobal_produce.mpr ⟨isGlobal, ?_⟩)
    exact fun occurs => extending name occurs fixed

end Valued

/-- Values for all names of some clauses: those of the bound ones are known, and
the others have neither bags nor functions. -/
structure Assigned (program : Program) (scope : Scope) (names : List Name)
    (env bound : Env) : Prop extends Valued program scope names env bound where
  plain : ∀ name ∈ names, scope.isBound name = false →
    scope.isGlobal program name = false →
    ∃ value, env.lookup name = some value ∧ value.toExpr?.isSome = true

/-- A value without bags and functions is given only by itself. -/
theorem Assigned.exists_shared {session : Session} {program : Program}
    {scope : Scope} {names : List Name} {env bound inner : Env}
    (assigned : Assigned program scope names env bound) (member : name ∈ names)
    (isUnbound : scope.isBound name = false)
    (notGlobal : scope.isGlobal program name = false)
    (gives : inner.Gives (session.meaning env) name) :
    ∃ value, env.lookup name = some value ∧ inner.lookup name = some value := by
  obtain ⟨value, inEnv, isPlain⟩ :=
    assigned.plain name member isUnbound notGlobal
  obtain ⟨found, inInner, alike⟩ := gives
  rw [Session.meaning_of_env inEnv] at alike
  exact ⟨value, inEnv, Value.eq_of_alike isPlain alike ▸ inInner⟩

/-- What has been joined for some clauses stands for them. -/
structure Joined.Tracks (session : Session) (program : Program) (scope : Scope)
    (names : List Name) (env bound : Env) (done : List Expr) (joined : Joined) :
    Prop where
  goals : joined.scope.goals = scope.goals
  isBound : ∀ name, joined.scope.isBound name = true ↔
    scope.isBound name = true ∨
    ∃ part ∈ joined.parts, name ∈ part.pattern.occurrences
  apart : ∀ part ∈ joined.parts, scope.Extends program names part
  complete : session.InTurn env done true →
    Generator.Leads session joined.parts bound fun last =>
      Valued program joined.scope names env last ∧
        ∀ inner, (∀ name, joined.scope.Fixes program names name →
          inner.lookup name = last.lookup name) →
          ∀ condition ∈ joined.residual, session.Holds inner condition
  sound : ∀ {last inner holds},
    Generator.Reaches session joined.parts bound last →
    Valued program joined.scope names env last →
    (∀ name, joined.scope.Fixes program names name →
      inner.lookup name = last.lookup name) →
    (∀ condition ∈ joined.residual, session.Held inner condition) →
    session.InTurn env done holds → holds = true

namespace Joined.Tracks

variable {session : Session} {program : Program} {scope : Scope}
  {names : List Name}
  {env bound : Env} {done : List Expr} {joined : Joined} {clause : Expr}

theorem start (valued : Valued program scope names env bound) :
    Tracks session program scope names env bound [] ⟨scope, [], []⟩ := by
  refine ⟨rfl, by simp, nofun, fun _ => ⟨valued, nofun⟩, ?_⟩
  intro last inner holds _ _ _ _ inTurn
  cases inTurn
  rfl

section Names

variable (tracks : Tracks session program scope names env bound done joined)
  {name : Name}

include tracks

theorem isGlobal_iff : joined.scope.isGlobal program name = true ↔
    scope.isGlobal program name = true ∧ joined.scope.isBound name = false := by
  have grows : scope.isBound name = true → joined.scope.isBound name = true :=
    fun isBound => (tracks.isBound name).mpr (.inl isBound)
  simp only [Scope.isGlobal, Scope.isGoal, tracks.goals, Bool.and_eq_true,
    Bool.not_eq_true']
  constructor
  · intro isGlobal
    obtain ⟨⟨isGoal, isUnbound⟩, declared⟩ := isGlobal
    refine ⟨⟨⟨isGoal, ?_⟩, declared⟩, isUnbound⟩
    rw [← Bool.not_eq_true] at isUnbound ⊢
    exact fun isBound => isUnbound (grows isBound)
  · intro isGlobal
    exact ⟨⟨isGlobal.1.1.1, isGlobal.2⟩, isGlobal.1.2⟩

theorem extends_of_apart {generator : Generator}
    (unbound : ∀ name ∈ generator.pattern.occurrences,
      joined.scope.isBound name = false)
    (notGlobal : ∀ name ∈ generator.pattern.occurrences, name ∈ names →
      scope.isGlobal program name = false) :
    scope.Extends program names generator ∧
      joined.scope.Extends program names generator := by
  refine ⟨?_, ?_⟩
  · intro name occurs fixed
    rcases fixed with wasBound | ⟨member, isGlobal⟩
    · exact absurd ((tracks.isBound name).mpr (.inl wasBound))
        (by simp [unbound name occurs])
    · exact absurd isGlobal (by simp [notGlobal name occurs member])
  · intro name occurs fixed
    rcases fixed with isBound | ⟨member, isGlobal⟩
    · exact absurd isBound (by simp [unbound name occurs])
    · exact absurd (tracks.isGlobal_iff.mp isGlobal).1
        (by simp [notGlobal name occurs member])

end Names

/-- A condition on known names becomes residual. -/
theorem filter
    (tracks : Tracks session program scope names env bound done joined)
    (uniform : session.Uniform) (subset : clause.freeVars ⊆ names)
    (locals : (joined.scope.locals program clause).all
      joined.scope.isBound = true) :
    Tracks session program scope names env bound (done ++ [clause])
      { joined with residual := joined.residual ++ [clause] } := by
  refine ⟨tracks.goals, tracks.isBound, tracks.apart, ?_, ?_⟩
  · intro allTrue
    rcases allTrue.of_snoc with
      ⟨_, absurdity⟩ | ⟨doneTrue, site, started, evaluated⟩
    · cases absurdity
    · refine (tracks.complete doneTrue).mono ?_
      intro last reached
      obtain ⟨valued, hold⟩ := reached
      refine ⟨valued, ?_⟩
      intro inner same
      refine List.forall_mem_append.mpr
        ⟨hold inner same, List.forall_mem_singleton.mpr ?_⟩
      intro site' started'
      exact Session.evalIn_bool uniform started started'
        ((valued.congr same).share subset locals) evaluated
  · intro last inner holds reaches valued same held inTurn
    obtain ⟨heldBefore, heldClause⟩ := List.forall_mem_append.mp held
    rcases inTurn.of_snoc with ⟨isFalse, _⟩ | ⟨_, site, started, evaluated⟩
    · exact absurd (tracks.sound reaches valued same heldBefore isFalse)
        Bool.false_ne_true
    · obtain ⟨site', started', isTrue⟩ :=
        List.forall_mem_singleton.mp heldClause
      rw [Session.evalIn_bool uniform started started'
        ((valued.congr same).share subset locals) evaluated] at isTrue
      cases isTrue
      rfl

section Generated

variable {supply later : NameSupply} {generator : Generator}
  {residual : List Expr} {side : Expr}
  {pattern : Pattern}

/-- The equations of a scanned clause mention what is known after its
generator. -/
theorem fixes_of_equated {equation : Expr}
    (equated : Pattern.Equated joined.scope generator.pattern.occurrences
      equation)
    (member : name ∈ equation.freeVars) :
    (joined.scope.produce generator).Fixes program names name :=
  .inl (Scope.isBound_produce_iff.mpr (equated name member))

/-- A scanned clause adds its generator and its equations. -/
theorem generated
    (tracks : Tracks session program scope names env bound done joined)
    (uniform : session.Uniform)
    (assigned : Assigned program scope names env bound)
    (subset : clause.freeVars ⊆ names) (reserved : names ⊆ supply.used)
    (scan : ClauseScan program joined.scope supply later clause generator
      residual side pattern)
    (notGlobal : ∀ name ∈ side.freeVars, scope.isGlobal program name = false) :
    Tracks session program scope names env bound (done ++ [clause])
      { scope := joined.scope.produce generator
        parts := joined.parts ++ [generator]
        residual := joined.residual ++ residual } := by
  have generatedIff {name : Name} (member : name ∈ names) :
      name ∈ generator.pattern.occurrences ↔
        name ∈ side.freeVars ∧ joined.scope.isBound name = false :=
    scan.mem_generated_iff (reserved member)
  obtain ⟨apartFromScope, extending⟩ :=
    tracks.extends_of_apart scan.freshened.unbound
    fun name occurs member => notGlobal name ((generatedIff member).mp occurs).1
  refine ⟨Scope.goals_produce.trans tracks.goals, ?_, ?_, ?_, ?_⟩
  · intro name
    rw [Scope.isBound_produce_iff, tracks.isBound, or_assoc]
    simp [or_and_right, exists_or]
  · exact List.forall_mem_append.mpr
      ⟨tracks.apart, List.forall_mem_singleton.mpr apartFromScope⟩
  · intro allTrue
    rcases allTrue.of_snoc with
      ⟨_, absurdity⟩ | ⟨doneTrue, site, started, evaluated⟩
    · cases absurdity
    · refine (tracks.complete doneTrue).snoc ?_
      intro last reached site' started'
      obtain ⟨valued, hold⟩ := reached
      obtain ⟨kind, rows, evaluatedSource, holdsIff⟩ :=
        scan.holds_iff uniform valued subset started started' evaluated site'
      obtain ⟨row, member, inner, binds, gives, equations⟩ := holdsIff.mp rfl
      refine ⟨inner, ⟨kind, rows, row, evaluatedSource, member, binds⟩, ?_, ?_⟩
      · refine valued.produce extending binds ?_
        intro name member occurs
        obtain ⟨inSide, isUnbound⟩ := (generatedIff member).mp occurs
        have wasUnbound : scope.isBound name = false := by
          rw [← Bool.not_eq_true]
          exact fun wasBound => apartFromScope name occurs (.inl wasBound)
        exact assigned.exists_shared member wasUnbound (notGlobal name inSide)
          (gives name inSide isUnbound)
      · intro other same
        refine List.forall_mem_append.mpr ⟨?_, ?_⟩
        · refine hold other fun name fixed => ?_
          rw [same name (extending.fixes fixed), extending.lookup binds fixed]
        · intro equation member
          refine Session.holds_of_isEquation
            (scan.freshened.areEquations equation member)
            (fun name occurs => same name
              (fixes_of_equated (scan.equated equation member) occurs))
            ⟨site', started', equations equation member⟩
  · intro last inner holds reaches valued same held inTurn
    obtain ⟨middle, site', before, started', scans⟩ := reaches.of_snoc
    obtain ⟨kind, rows, row, evaluatedSource, member, binds⟩ := scans
    have valuedBefore := valued.of_produce extending binds
    obtain ⟨heldBefore, heldEquations⟩ := List.forall_mem_append.mp held
    rcases inTurn.of_snoc with ⟨isFalse, _⟩ | ⟨_, site, started, evaluated⟩
    · refine absurd (tracks.sound before valuedBefore ?_ heldBefore isFalse)
        Bool.false_ne_true
      intro name fixed
      rw [same name (extending.fixes fixed), extending.lookup binds fixed]
    · obtain ⟨kind', rows', evaluatedSource', holdsIff⟩ :=
        scan.holds_iff uniform valuedBefore
        subset started started' evaluated site'
      rw [evaluatedSource] at evaluatedSource'
      cases evaluatedSource'
      refine holdsIff.mpr ⟨row, member, last, binds, ?_, ?_⟩
      · intro name inSide isUnbound
        have inNames : name ∈ names :=
          subset (scan.searches.mem_freeVars.mpr (.inl inSide))
        have occurs := (generatedIff inNames).mpr ⟨inSide, isUnbound⟩
        exact valued.gives inNames
          (Scope.isBound_produce_iff.mpr (.inr occurs)) session
      · intro equation member
        refine Session.holds_of_isEquation
          (scan.freshened.areEquations equation member) ?_
          (heldEquations equation member) site' started'
        intro name occurs
        exact (same name
          (fixes_of_equated (scan.equated equation member) occurs)).symm

end Generated

end Joined.Tracks

end Inversion

end RecursiveQuery
