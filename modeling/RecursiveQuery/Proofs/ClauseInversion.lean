import RecursiveQuery.Proofs.CorrespondingRuns
import RecursiveQuery.Proofs.FreshenedPatterns
import RecursiveQuery.Proofs.KnownInversion

/-!
# Inversion of single clauses

A membership or an equality holds for some values of its variables exactly if
its generator has a row that matches with these values and satisfies the
residual equations.  The generator is scanned where only the bound variables are
known.
-/

namespace RecursiveQuery

open Value (Corresponds)

variable {value : Value}

/-- The value of a name; a name without value has any. -/
def Session.meaning (session : Session) (env : Env) (name : Name) : Value :=
  match session.lookup env name with
  | .ok value => value
  | .error _ => .unit

theorem Session.meaning_of_lookup {session : Session} {env : Env} {name : Name}
    (found : session.lookup env name = .ok value) :
    session.meaning env name = value := by
  rw [meaning, found]

theorem Session.meaning_of_env {session : Session} {env : Env} {name : Name}
    (found : env.lookup name = some value) : session.meaning env name = value :=
  meaning_of_lookup (lookup_of_env found)

namespace Expr

variable {session : Session} {call : Caller} {env : Env}

mutual

/-- A row fits a pattern exactly if it equals what the expression evaluates
to. -/
theorem fits_iff_alike {site : Site} {side : Expr} {pattern : Pattern}
    {value : Value} (taken : side.toPattern? = some pattern)
    (evaluated : side.eval session call env site = .ok value) (row : Value) :
    pattern.Fits (session.meaning env) row ↔ row.Alike value := by
  cases side with
  | var name =>
      cases taken
      rw [Pattern.Fits, Session.meaning_of_lookup evaluated]
  | literal expected =>
      cases taken
      cases evaluated
      exact ⟨Value.Alike.symm, Value.Alike.symm⟩
  | tuple items =>
      obtain ⟨patterns, takenItems, equality⟩ := Option.map_eq_some_iff.mp taken
      cases equality
      obtain ⟨values, evaluatedItems, equality⟩ :=
        Outcome.bind_eq_ok_iff.mp evaluated
      cases equality
      cases row with
      | tuple components =>
          rw [Pattern.Fits, Value.Alike, Value.same, Value.sameList_iff]
          exact fitsEach_iff_alike takenItems evaluatedItems components
      | _ => simp [Pattern.Fits, Value.Alike, Value.same]
  | _ => cases taken

theorem fitsEach_iff_alike {site : Site} {items : List Expr}
    {patterns : List Pattern} {values : List Value}
    (taken : toPatterns? items = some patterns)
    (evaluated : evalList session call env site items = .ok values)
    (components : List Value) :
    Pattern.FitsEach (session.meaning env) patterns components ↔
      List.Forall₂ Value.Alike components values := by
  cases items with
  | nil =>
      cases taken
      cases evaluated
      cases components with
      | nil => simp [Pattern.FitsEach]
      | cons _ _ => simp [Pattern.FitsEach]
  | cons item items =>
      rw [toPatterns?] at taken
      split at taken
      · next pattern patterns takenFirst takenRest =>
          cases taken
          obtain ⟨first, evaluatedFirst, rest⟩ :=
            Outcome.bind_eq_ok_iff.mp evaluated
          obtain ⟨others, evaluatedRest, equality⟩ :=
            Outcome.bind_eq_ok_iff.mp rest
          cases equality
          cases components with
          | nil => simp [Pattern.FitsEach]
          | cons component components =>
              rw [Pattern.FitsEach, List.forall₂_cons,
                fits_iff_alike takenFirst evaluatedFirst component,
                fitsEach_iff_alike takenRest evaluatedRest components]
      · cases taken

end

mutual

/-- What variables, literals and tuples build has only functions of its
variables. -/
theorem corresponds_of_toPattern? {sites : Site → Site → Prop}
    (respects : session.Respects sites) {site : Site} {side : Expr}
    {pattern : Pattern} {value : Value} (taken : side.toPattern? = some pattern)
    (pairs : Env.CorrespondOn sites side.freeVars env env)
    (evaluated : side.eval session call env site = .ok value) :
    Corresponds sites value value := by
  cases side with
  | var name =>
      have agree :=
        @Session.lookup_agree _ _ call respects .var env env name site
        (pairs name List.mem_cons_self) (fun _ => rfl)
      have found : session.lookup env name = .ok value := evaluated
      rw [found] at agree
      obtain ⟨other, equality, pair⟩ := agree.exists_ok
      rw [evaluated] at equality
      cases equality
      exact pair
  | literal expected =>
      cases evaluated
      exact .ofLiteral expected
  | tuple items =>
      obtain ⟨patterns, takenItems, _⟩ := Option.map_eq_some_iff.mp taken
      obtain ⟨values, evaluatedItems, equality⟩ :=
        Outcome.bind_eq_ok_iff.mp evaluated
      cases equality
      exact .tuple
        (correspond_of_toPatterns? respects takenItems pairs evaluatedItems)
  | _ => cases taken

theorem correspond_of_toPatterns? {sites : Site → Site → Prop}
    (respects : session.Respects sites) {site : Site} {items : List Expr}
    {patterns : List Pattern} {values : List Value}
    (taken : toPatterns? items = some patterns)
    (pairs : Env.CorrespondOn sites (freeVarsList items) env env)
    (evaluated : evalList session call env site items = .ok values) :
    List.Forall₂ (Corresponds sites) values values := by
  cases items with
  | nil =>
      cases evaluated
      exact .nil
  | cons item items =>
      rw [toPatterns?] at taken
      split at taken
      · next pattern patterns takenFirst takenRest =>
          obtain ⟨first, evaluatedFirst, rest⟩ :=
            Outcome.bind_eq_ok_iff.mp evaluated
          obtain ⟨others, evaluatedRest, equality⟩ :=
            Outcome.bind_eq_ok_iff.mp rest
          cases equality
          exact .cons
            (corresponds_of_toPattern? respects takenFirst
              (pairs.mono (List.subset_append_left _ _)) evaluatedFirst)
            (correspond_of_toPatterns? respects takenRest
              (pairs.mono (List.subset_append_right _ _)) evaluatedRest)
      · cases taken

end

end Expr

/-- Values without functions for all variables of an expression, which have the
same values in two environments. -/
structure Env.Share (names : List Name) (env other : Env) : Prop where
  same : ∀ name ∈ names, other.lookup name = env.lookup name
  functionFree : ∀ name ∈ names, ∀ value, env.lookup name = some value →
    value.isFunctionFree = true

namespace Env.Share

variable {names : List Name} {env other : Env}

theorem correspondOn (share : Share names env other)
    (sites : Site → Site → Prop) : CorrespondOn sites names env other := by
  intro name member
  rw [share.same name member]
  cases found : env.lookup name with
  | none => exact .none
  | some value =>
      exact .some
        (.of_isFunctionFree (share.functionFree name member value found))

end Env.Share

namespace Session

variable {session : Session} {env other : Env} {site site' : Site} {expr : Expr}

/-- An expression evaluates to a corresponding value at another site and where
its variables have the same values. -/
theorem exists_evalIn (uniform : session.Uniform) (started : Started site)
    (started' : Started site') (share : Env.Share expr.freeVars env other)
    (evaluated : session.evalIn site env expr = .ok value) :
    ∃ value', session.evalIn site' other expr = .ok value' ∧
      Corresponds (Across site site') value value' := by
  have agree := evalIn_agree (uniform started started') expr Across.below
    (share.correspondOn _)
  rw [evaluated] at agree
  exact agree.exists_ok

/-- A condition has the same truth value at another site and where its variables
have the same values. -/
theorem evalIn_bool (uniform : session.Uniform) (started : Started site)
    (started' : Started site') (share : Env.Share expr.freeVars env other)
    {holds : Bool}
    (evaluated : session.evalIn site env expr = .ok (.bool holds)) :
    session.evalIn site' other expr = .ok (.bool holds) := by
  obtain ⟨value, evaluated', pair⟩ :=
    exists_evalIn uniform started started' share evaluated
  cases pair
  exact evaluated'

end Session

namespace Inversion

variable {name : Name}

/-- The side of a clause that is a pattern, and the collection in which the
clause looks for its value. -/
inductive SearchesIn : (term side source : Expr) → Prop where
  | member (side source : Expr) :
      SearchesIn (.binary .member side source) side source
  | equalLeft (side value : Expr) :
      SearchesIn (.binary .eq side value) side (.list [value])
  | equalRight (value side : Expr) :
      SearchesIn (.binary .eq value side) side (.list [value])

namespace SearchesIn

variable {term side source : Expr}

theorem mem_freeVars (searches : SearchesIn term side source) :
    name ∈ term.freeVars ↔ name ∈ side.freeVars ∨ name ∈ source.freeVars := by
  cases searches with
  | member => exact List.mem_append
  | equalLeft => simp [Expr.freeVars, Expr.freeVarsList]
  | equalRight => simp [Expr.freeVars, Expr.freeVarsList, or_comm]

variable {session : Session} {env bound : Env} {site site' : Site}
  {pattern : Pattern}
  {holds : Bool}

/-- The value of a pattern side is equal to one of some rows exactly if one of
the corresponding rows fits the pattern. -/
theorem listed_iff_fits (taken : side.toPattern? = some pattern)
    (uniform : session.Uniform) (started : Session.Started site)
    (started' : Session.Started site') (free : Env.Share side.freeVars env env)
    {inside : Site} {sideValue : Value}
    (evaluated : session.evalIn inside env side = .ok sideValue)
    {rows rows' : List Value}
    (pairs : List.Forall₂ (Corresponds (Session.Across site site')) rows
      rows') : (rows.any fun row => row.same sideValue) = true ↔
      ∃ row ∈ rows', pattern.Fits (session.meaning env) row := by
  have respects := uniform started started'
  have sidePair : Corresponds (Session.Across site site') sideValue sideValue :=
    Expr.corresponds_of_toPattern? respects taken (free.correspondOn _)
      evaluated
  rw [(Corresponds.keepsEquality respects.unique).any_same pairs sidePair,
    List.any_eq_true]
  refine exists_congr fun row => and_congr_right fun _ => ?_
  exact (Expr.fits_iff_alike taken evaluated row).symm

/-- A clause that evaluates is true exactly if the collection has a row that
fits the pattern, wherever the collection is evaluated. -/
theorem fits_iff (searches : SearchesIn term side source)
    (taken : side.toPattern? = some pattern) (uniform : session.Uniform)
    (started : Session.Started site) (started' : Session.Started site')
    (share : Env.Share source.freeVars env bound)
    (free : Env.Share side.freeVars env env)
    (evaluated : session.evalIn site env term = .ok (.bool holds)) :
    ∃ kind rows, session.evalIn site' bound source =
      .ok (.collection kind rows) ∧
      (holds = true ↔
        ∃ row ∈ rows, pattern.Fits (session.meaning env) row) := by
  have single {value : Expr} {found sideValue : Value} {inside inside' : Site}
      (startedInside : Session.Started inside)
      (shareValue : Env.Share value.freeVars env bound)
      (evaluatedValue : session.evalIn inside env value = .ok found)
      (evaluatedSide : session.evalIn inside' env side = .ok sideValue) :
      ∃ kind rows, session.evalIn site' bound (.list [value]) =
        .ok (.collection kind rows) ∧
        (found.same sideValue = true ↔
          ∃ row ∈ rows, pattern.Fits (session.meaning env) row) := by
    obtain ⟨found', evaluatedValue', pair⟩ :=
      Session.exists_evalIn uniform startedInside
      (started'.cons 0) shareValue evaluatedValue
    refine ⟨.list, [found'], ?_, ?_⟩
    · rw [Session.evalIn] at evaluatedValue' ⊢
      rw [Expr.eval, Expr.evalList, evaluatedValue']
      rfl
    · have listed :=
        listed_iff_fits taken uniform startedInside (started'.cons 0) free
        evaluatedSide (.cons pair .nil)
      simpa using listed
  cases searches with
  | member =>
      obtain ⟨sideValue, evaluatedSide, rest⟩ :=
        Outcome.bind_eq_ok_iff.mp evaluated
      obtain ⟨found, evaluatedSource, member⟩ := Outcome.bind_eq_ok_iff.mp rest
      obtain ⟨isMember, looked, equality⟩ := Outcome.bind_eq_ok_iff.mp member
      cases equality
      obtain ⟨found', evaluatedSource', pair⟩ :=
        Session.exists_evalIn uniform (started.cons 1)
        started' share evaluatedSource
      cases pair with
      | collection kind rows =>
          cases looked
          exact ⟨kind, _, evaluatedSource',
            listed_iff_fits taken uniform (started.cons 1) started'
            free evaluatedSide rows⟩
      | _ => cases looked
  | equalLeft _ value =>
      obtain ⟨sideValue, evaluatedSide, rest⟩ :=
        Outcome.bind_eq_ok_iff.mp evaluated
      obtain ⟨found, evaluatedValue, equality⟩ := Outcome.bind_eq_ok_iff.mp rest
      cases equality
      have swapped : sideValue.same found = true ↔
        found.same sideValue = true :=
        ⟨Value.Alike.symm, Value.Alike.symm⟩
      rw [swapped]
      exact single (started.cons 1)
        (by simpa [Expr.freeVars, Expr.freeVarsList] using share)
        evaluatedValue evaluatedSide
  | equalRight value =>
      obtain ⟨found, evaluatedValue, rest⟩ :=
        Outcome.bind_eq_ok_iff.mp evaluated
      obtain ⟨sideValue, evaluatedSide, equality⟩ :=
        Outcome.bind_eq_ok_iff.mp rest
      cases equality
      exact single (started.cons 0)
        (by simpa [Expr.freeVars, Expr.freeVarsList] using share)
        evaluatedValue evaluatedSide

end SearchesIn

/-- The values that some names have in an environment, and those of the bound
ones among them in another. -/
structure Valued (program : Program) (scope : Scope) (names : List Name)
    (env bound : Env) : Prop where
  shared : ∀ name ∈ names, scope.isBound name = true →
    ∃ value, env.lookup name = some value ∧ bound.lookup name = some value
  global : ∀ name ∈ names, scope.isGlobal program name = true →
    env.lookup name = none ∧ bound.lookup name = none
  functionFree : ∀ name ∈ names, ∀ value, env.lookup name = some value →
    value.isFunctionFree = true

namespace Valued

variable {program : Program} {scope : Scope} {names : List Name}
  {env bound : Env}

theorem share (valued : Valued program scope names env bound) {expr : Expr}
    (subset : expr.freeVars ⊆ names)
    (locals : (scope.locals program expr).all scope.isBound = true) :
    Env.Share expr.freeVars env bound := by
  refine ⟨?_, fun name member => valued.functionFree name (subset member)⟩
  intro name member
  by_cases isGlobal : scope.isGlobal program name = true
  · obtain ⟨unset, unbound⟩ := valued.global name (subset member) isGlobal
    rw [unset, unbound]
  · have isLocal : name ∈ scope.locals program expr :=
      Scope.mem_locals.mpr ⟨member, by simpa using isGlobal⟩
    have isBound : scope.isBound name = true :=
      List.all_eq_true.mp locals name isLocal
    obtain ⟨value, inEnv, inBound⟩ := valued.shared name (subset member) isBound
    rw [inEnv, inBound]

theorem gives (valued : Valued program scope names env bound)
    (member : name ∈ names) (isBound : scope.isBound name = true)
    (session : Session) :
    bound.Gives (session.meaning env) name := by
  obtain ⟨value, inEnv, inBound⟩ := valued.shared name member isBound
  refine ⟨value, inBound, ?_⟩
  rw [Session.meaning_of_env inEnv]
  exact Value.Alike.refl value

end Valued

/-- How a clause is scanned: the source looks for the value of a pattern, which
has been freshened. -/
structure ClauseScan (program : Program) (scope : Scope)
    (supply later : NameSupply) (term : Expr) (generator : Generator)
    (residual : List Expr) (side : Expr) (pattern : Pattern) : Prop where
  searches : SearchesIn term side generator.source
  taken : side.toPattern? = some pattern
  locals : (scope.locals program generator.source).all scope.isBound = true
  freshened : Pattern.Freshened scope pattern supply generator.pattern
    residual later
  equated : ∀ condition ∈ residual,
    Pattern.Equated scope generator.pattern.occurrences condition

/-- An inversion that does not fail scans the clause. -/
def ScansClause (program : Program) (scope : Scope) (supply : NameSupply)
    (term : Expr) (inversion : Inversion) (later : NameSupply) : Prop :=
  match inversion with
  | .generated generator residual => ∃ side pattern,
      ClauseScan program scope supply later term generator residual side pattern
  | .filter => False
  | .failed _ => True

section Runs

variable {program : Program} {scope : Scope} {supply : NameSupply}
variable {side right : Expr} {pattern : Pattern}

theorem freshen_clause (taken : side.toPattern? = some pattern)
    (reserved : side.freeVars ⊆ supply.used)
    (boundReserved : scope.BindsAmong supply.used) :
    (pattern.freshen scope).Ensures supply fun result later =>
      Pattern.Freshened scope pattern supply result.1 result.2 later ∧
        ∀ condition ∈ result.2,
        Pattern.Equated scope result.1.occurrences condition := by
  rw [Expr.freeVars_of_toPattern? taken] at reserved
  exact (Pattern.freshen_spec pattern reserved boundReserved).and
    (pattern.freshen_equated supply)

theorem ofMember_scans {left : Expr} (reserved : left.freeVars ⊆ supply.used)
    (boundReserved : scope.BindsAmong supply.used) :
    (ofMember program scope left right).Ensures supply
      (ScansClause program scope supply (.binary .member left right)) := by
  rw [ofMember]
  split
  · exact .pure trivial
  · next found =>
      split
      · exact .pure trivial
      · next pattern taken =>
          refine .bind (freshen_clause taken reserved boundReserved) ?_
          intro result later _ freshened
          refine .pure ⟨left, pattern, .member left right, taken, ?_,
            freshened.1, freshened.2⟩
          rw [List.all_eq_true]
          intro name isLocal
          simpa using List.find?_eq_none.mp found name isLocal

theorem ofPattern_scans {term value : Expr}
    (searches : SearchesIn term side (.list [value]))
    (taken : side.toPattern? = some pattern)
    (locals : (scope.locals program value).all scope.isBound = true)
    (reserved : side.freeVars ⊆ supply.used)
    (boundReserved : scope.BindsAmong supply.used) :
    (ofPattern scope pattern value).Ensures supply
      (ScansClause program scope supply term) := by
  refine .bind (freshen_clause taken reserved boundReserved) ?_
  intro result later _ freshened
  refine .pure ⟨side, pattern, searches, taken, ?_, freshened.1, freshened.2⟩
  simpa [Generator.singleton, Scope.locals, Expr.freeVars,
    Expr.freeVarsList] using locals

theorem ofEquality_scans {left : Expr}
    (reserved : (Expr.binary .eq left right).freeVars ⊆ supply.used)
    (boundReserved : scope.BindsAmong supply.used) :
    (ofEquality program scope (.binary .eq left right) left right).Ensures
    supply (ScansClause program scope supply (.binary .eq left right)) := by
  obtain ⟨leftReserved, rightReserved⟩ := List.append_subset.mp reserved
  rw [ofEquality]
  split
  · next pattern found =>
      obtain ⟨locals, taken⟩ := of_equalityPattern? found
      exact ofPattern_scans (.equalLeft left right) taken locals leftReserved
        boundReserved
  · split
    · next pattern found =>
        obtain ⟨locals, taken⟩ := of_equalityPattern? found
        exact ofPattern_scans (.equalRight left right) taken locals
          rightReserved boundReserved
    · exact .pure trivial

end Runs

namespace ClauseScan

variable {program : Program} {scope : Scope} {supply later : NameSupply}
  {term side : Expr}
  {pattern : Pattern} {generator : Generator} {residual : List Expr}

/-- The variables that the clause generates, apart from new names, are those of
the pattern that are not bound. -/
theorem mem_generated_iff
    (scan : ClauseScan program scope supply later term generator residual side
      pattern)
    (reserved : name ∈ supply.used) :
    name ∈ generator.pattern.occurrences ↔
      name ∈ side.freeVars ∧ scope.isBound name = false := by
  rw [Expr.freeVars_of_toPattern? scan.taken]
  constructor
  · intro generated
    refine ⟨?_, scan.freshened.unbound name generated⟩
    exact (scan.freshened.new name generated).resolve_left
      (not_not_intro reserved)
  · intro inPattern
    exact scan.freshened.kept name inPattern.1 inPattern.2

variable {session : Session} {names : List Name} {env bound : Env}
  {site site' : Site}
  {holds : Bool}

/-- A clause that evaluates is true exactly if some row matches with the right
values for all generated variables of the clause and satisfies the equations. -/
theorem holds_iff
    (scan : ClauseScan program scope supply later term generator residual side
      pattern)
    (uniform : session.Uniform) (valued : Valued program scope names env bound)
    (subset : term.freeVars ⊆ names) (started : Session.Started site)
    (started' : Session.Started site')
    (evaluated : session.evalIn site env term = .ok (.bool holds))
    (site'' : Site) :
    ∃ kind rows, session.evalIn site' bound generator.source =
      .ok (.collection kind rows) ∧
      (holds = true ↔
        ∃ row ∈ rows, ∃ inner, generator.pattern.bind row bound = some inner ∧
        (∀ name ∈ side.freeVars, scope.isBound name = false →
          inner.Gives (session.meaning env) name) ∧
        ∀ condition ∈ residual, session.evalIn site'' inner condition =
          .ok (.bool true)) := by
  have sideSubset : side.freeVars ⊆ names := fun name member =>
    subset (scan.searches.mem_freeVars.mpr (.inl member))
  have sourceSubset : generator.source.freeVars ⊆ names := fun name member =>
    subset (scan.searches.mem_freeVars.mpr (.inr member))
  have free : Env.Share side.freeVars env env :=
    ⟨fun _ _ => rfl,
      fun name member => valued.functionFree name (sideSubset member)⟩
  obtain ⟨kind, rows, evaluatedSource, fitsIff⟩ :=
    scan.searches.fits_iff scan.taken uniform
    started started' (valued.share sourceSubset scan.locals) free evaluated
  refine ⟨kind, rows, evaluatedSource, fitsIff.trans ?_⟩
  refine exists_congr fun row => and_congr_right fun _ => ?_
  rw [Expr.freeVars_of_toPattern? scan.taken] at sideSubset ⊢
  refine scan.freshened.fits session _ site'' (session.meaning env) row bound ?_
  exact fun name member isBound =>
    valued.gives (sideSubset member) isBound session

end ClauseScan

end Inversion

end RecursiveQuery
