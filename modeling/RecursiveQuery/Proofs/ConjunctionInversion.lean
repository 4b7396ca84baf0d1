import RecursiveQuery.Proofs.JoinedClauses
import RecursiveQuery.Proofs.Planning
import RecursiveQuery.Proofs.WiderLimits

/-!
# Inversion of conjunctions

The generator of a conjunction of memberships, equalities and conditions has
exactly the rows that satisfy it, whatever is chosen for its variables.  A side
of a clause that is taken as a pattern must not mix variables with names of
declarations: the pattern would bind such a name instead of comparing with its
value.
-/

namespace RecursiveQuery

/-- The sides of a clause that can be taken as patterns. -/
def Expr.patternSides (clause : Expr) : List Expr :=
  List.filter (fun side => side.toPattern?.isSome)
    (match clause with
      | binary .member side _ => [side]
      | binary .eq left right => [left, right]
      | _ => [])

/-- Whether an expression has variables without value and names of
declarations. -/
def Scope.mixes (scope : Scope) (program : Program) (expr : Expr) : Bool :=
  expr.freeVars.any (scope.isGlobal program) &&
    !(scope.locals program expr).all scope.isBound

namespace Scope

variable {scope : Scope} {program : Program}

/-- Without `exists` filters the clauses of a conjunction are its conjuncts. -/
theorem flatten_conjuncts {left right : Expr}
    (simple : ∀ clause ∈ (Expr.andAlso left right).conjuncts,
      Inversion.isCompound clause = false)
    (supply : NameSupply) :
    (scope.flatten program (.andAlso left right)).Ensures supply
      fun clauses _ => clauses = (Expr.andAlso left right).conjuncts := by
  have plain (query : Query) :
    .existence query ∉ (Expr.andAlso left right).conjuncts := by
    intro member
    cases simple _ member
  obtain ⟨nesting, isSize⟩ : ∃ nesting, (Expr.andAlso left right).size =
    nesting + 1 :=
    ⟨left.size + right.size, by rw [Expr.size]; omega⟩
  have run : (scope.flatten program (.andAlso left right)).run supply =
      ((Expr.andAlso left right).conjuncts, supply) := by
    rw [flatten, isSize, Naming.run_bind, flattenWithin_run_of_plain _ _ plain]
    rfl
  rw [Naming.Ensures, run]
  exact ⟨List.Subset.refl _, rfl⟩

end Scope

namespace Inversion

/-- Whether a clause is the call of a function that is unfolded. -/
def unfolds (program : Program) (active : List Name) (clause : Expr) : Bool :=
  match clause.namedCall? with
  | some (function, _) =>
      (program.decl? function).any Decl.isFunction && !active.contains function
  | none => false

/-- Whether a clause is inverted as it stands, without a side that mixes
variables with names of declarations. -/
def isDirect (program : Program) (active : List Name) (scope : Scope)
    (clause : Expr) : Bool :=
  !isCompound clause && !unfolds program active clause &&
    clause.patternSides.all fun side => !scope.mixes program side

theorem of_isDirect {program : Program} {active : List Name} {scope : Scope}
    {clause : Expr} (direct : isDirect program active scope clause = true) :
    isCompound clause = false ∧ unfolds program active clause = false ∧
      (clause.patternSides.all fun side => !scope.mixes program side) =
        true := by
  simpa only [isDirect, Bool.and_eq_true, Bool.not_eq_true', and_assoc] using
    direct

theorem SearchesIn.mem_patternSides {clause side source : Expr}
    (searches : SearchesIn clause side source)
    (isPattern : side.toPattern?.isSome = true) :
    side ∈ clause.patternSides := by
  cases searches with
  | member => exact List.mem_filter.mpr ⟨List.mem_cons_self, isPattern⟩
  | equalLeft => exact List.mem_filter.mpr ⟨List.mem_cons_self, isPattern⟩
  | equalRight =>
      exact List.mem_filter.mpr
        ⟨List.mem_cons_of_mem _ List.mem_cons_self, isPattern⟩

/-- What a clause that is inverted as it stands becomes: a finite generator
scans it, and a filter has no unknown variables. -/
def Handles (program : Program) (scope : Scope) (supply : NameSupply)
    (clause : Expr) (inversion : Inversion) (later : NameSupply) : Prop :=
  match inversion with
  | .generated generator residual =>
      (scope.locals program clause).all scope.isBound = false ∧
        generator.pattern.occurrences ⊆ later.used ∧
        (generator.isFinite = true → ∃ side pattern,
          ClauseScan program scope supply later clause generator residual side
            pattern)
  | .filter => (scope.locals program clause).all scope.isBound = true
  | .failed _ => True

section Handles

variable {program : Program} {scope : Scope} {supply : NameSupply}
  {clause : Expr}

theorem handles_of_scansClause {inversion : Inversion} {later : NameSupply}
    (unbound : (scope.locals program clause).all scope.isBound = false)
    (scans : ScansClause program scope supply clause inversion later) :
    Handles program scope supply clause inversion later := by
  cases inversion with
  | generated generator residual =>
      obtain ⟨side, pattern, scan⟩ := scans
      exact ⟨unbound, scan.freshened.reserved, fun _ => ⟨side, pattern, scan⟩⟩
  | filter => exact scans.elim
  | failed obstacle => trivial

theorem ofOpaqueCall_handles {function : Name} {argument : Expr}
    (unbound : (scope.locals program clause).all scope.isBound = false)
    (reserved : argument.freeVars ⊆ supply.used)
    (boundReserved : scope.BindsAmong supply.used) :
    (ofOpaqueCall scope clause function argument).Ensures supply
      (Handles program scope supply clause) := by
  rw [ofOpaqueCall]
  split
  · exact .pure trivial
  · next pattern taken =>
      refine .bind (freshen_clause taken reserved boundReserved) ?_
      intro result later _ freshened
      obtain ⟨newPattern, equations⟩ := result
      dsimp only
      split
      · refine .pure ⟨unbound, freshened.1.reserved, ?_⟩
        intro finite
        cases finite
      · exact .pure trivial

variable {active : List Name} {unfold : Unfolder}

theorem ofTerm_handles {nesting : Nat} (simple : isCompound clause = false)
    (kept : unfolds program active clause = false)
    (reserved : clause.freeVars ⊆ supply.used)
    (boundReserved : scope.BindsAmong supply.used) :
    (ofTerm program unfold active nesting scope clause).Ensures supply
      (Handles program scope supply clause) := by
  cases nesting with
  | zero => exact .pure trivial
  | succ nesting =>
      rw [ofTerm]
      split
      · next allBound => exact .pure allBound
      · next someUnbound =>
          have unbound := Bool.eq_false_iff.mpr someUnbound
          split
          · next left right =>
              exact (ofMember_scans (List.append_subset.mp reserved).1
                boundReserved).mono fun _ _ _ => handles_of_scansClause unbound
          · next left right =>
              exact (ofEquality_scans reserved boundReserved).mono
                fun _ _ _ => handles_of_scansClause unbound
          · cases simple
          · cases simple
          · next function argument =>
              rw [ofCall]
              split
              · exact .pure trivial
              · split
                · next param body declared =>
                    have isActive : active.contains function = true := by
                      simpa [unfolds, Expr.namedCall?, declared,
                        Decl.isFunction] using kept
                    rw [if_pos isActive]
                    exact .pure trivial
                · exact ofOpaqueCall_handles unbound
                    (List.Subset.trans (List.subset_append_right _ _) reserved)
                    boundReserved
          · exact .pure trivial

end Handles

section Joined

variable {session : Session} {program : Program} {active : List Name}
  {scope : Scope}
  {names : List Name} {env bound : Env} {done : List Expr} {joined : Joined}
    {clause : Expr}
  {supply later : NameSupply} {generator : Generator} {residual : List Expr}
    {side : Expr}
  {pattern : Pattern}

/-- A clause that has something to bind takes no name of a declaration into its
pattern. -/
theorem ClauseScan.notGlobal
    (scan : ClauseScan program joined.scope supply later clause generator
      residual side pattern)
    (tracks : joined.Tracks session program scope names env bound done)
    (unbound : (joined.scope.locals program clause).all
      joined.scope.isBound = false)
    (unmixed : (clause.patternSides.all fun side => !scope.mixes program side) =
      true) :
    ∀ name ∈ side.freeVars, scope.isGlobal program name = false := by
  obtain ⟨unknown, isLocal, isUnbound⟩ := List.all_eq_false.mp unbound
  obtain ⟨inClause, notGlobalHere⟩ := Scope.mem_locals.mp isLocal
  have inSide : unknown ∈ side.freeVars := by
    refine (scan.searches.mem_freeVars.mp inClause).resolve_right
      fun inSource => ?_
    exact isUnbound (List.all_eq_true.mp scan.locals unknown
      (Scope.mem_locals.mpr ⟨inSource, notGlobalHere⟩))
  rw [Bool.not_eq_true] at isUnbound
  have sideUnmixed := List.all_eq_true.mp unmixed side
    (scan.searches.mem_patternSides (Option.isSome_of_eq_some scan.taken))
  have someUnknown : (scope.locals program side).all scope.isBound = false := by
    refine List.all_eq_false.mpr
      ⟨unknown, Scope.mem_locals.mpr ⟨inSide, ?_⟩, ?_⟩
    · rw [← Bool.not_eq_true] at notGlobalHere ⊢
      exact fun isGlobal =>
        notGlobalHere (tracks.isGlobal_iff.mpr ⟨isGlobal, isUnbound⟩)
    · intro wasBound
      rw [(tracks.isBound unknown).mpr (.inl wasBound)] at isUnbound
      cases isUnbound
  intro name member
  rw [← Bool.not_eq_true]
  intro isGlobal
  have someGlobal := List.any_eq_true.mpr ⟨name, member, isGlobal⟩
  rw [Scope.mixes, someGlobal, someUnknown] at sideUnmixed
  cases sideUnmixed

variable {unfold : Unfolder} {nesting : Nat}

/-- What has been joined stands for all clauses if all its generators are
finite. -/
theorem joinClauses_tracks (uniform : session.Uniform)
    (assigned : Assigned program scope names env bound) {clauses : List Expr}
    (direct : ∀ clause ∈ clauses, isDirect program active scope clause = true)
    (subset : ∀ clause ∈ clauses, clause.freeVars ⊆ names)
    (tracks : (∀ part ∈ joined.parts, part.isFinite = true) →
      joined.Tracks session program scope names env bound done)
    (reserved : names ⊆ supply.used)
    (boundReserved : joined.scope.BindsAmong supply.used) :
    (joinClauses (ofTerm program unfold active nesting) clauses joined).Ensures
      supply fun result _ => ∀ last, result = .ok last →
        (∀ part ∈ last.parts, part.isFinite = true) →
        last.Tracks session program scope names env bound
          (done ++ clauses) := by
  induction clauses generalizing joined done supply with
  | nil =>
      refine .pure ?_
      intro last equality finite
      cases equality
      rw [List.append_nil]
      exact tracks finite
  | cons clause clauses induction =>
      rw [List.forall_mem_cons] at direct subset
      rw [List.append_cons done clause clauses]
      obtain ⟨simple, kept, unmixed⟩ := of_isDirect direct.1
      refine .bind
        (ofTerm_handles simple kept (List.Subset.trans subset.1 reserved)
        boundReserved) ?_
      intro inversion later grown handled
      have reservedLater := List.Subset.trans reserved grown
      cases inversion with
      | generated generator residual =>
          obtain ⟨unbound, newReserved, scans⟩ := handled
          refine induction direct.2 subset.2 ?_ reservedLater ?_
          · intro finite
            obtain ⟨finiteBefore, finiteLast⟩ :=
              List.forall_mem_append.mp finite
            obtain ⟨side, pattern, scan⟩ :=
              scans (finiteLast generator List.mem_cons_self)
            have tracksBefore := tracks finiteBefore
            exact tracksBefore.generated uniform assigned subset.1 reserved scan
              (scan.notGlobal tracksBefore unbound unmixed)
          · exact (boundReserved.mono grown).produce newReserved
      | filter =>
          refine induction direct.2 subset.2 ?_ reservedLater
            (boundReserved.mono grown)
          intro finite
          exact (tracks finite).filter uniform subset.1 handled
      | failed obstacle => exact .pure nofun

end Joined

/-- A finite generator has a row with the right values for all unbound variables
exactly if the term is true. -/
def IsExact (session : Session) (program : Program) (scope : Scope)
    (env bound : Env) (term : Expr) : Inversion → Prop
  | .generated generator residual =>
      generator.isFinite = true → ∀ ⦃site site' site'' holds kind rows⦄,
        Session.Started site → Session.Started site' → Session.Started site'' →
        session.evalIn site env term = .ok (.bool holds) →
        session.evalIn site' bound generator.source =
          .ok (.collection kind rows) →
        (holds = true ↔
          ∃ row ∈ rows, ∃ inner, generator.pattern.bind row bound = some inner ∧
          (∀ name ∈ scope.locals program term, scope.isBound name = false →
            inner.Gives (session.meaning env) name) ∧
          ∀ condition ∈ residual, session.evalIn site'' inner condition =
            .ok (.bool true))
  | .filter => True
  | .failed _ => True

section Exact

variable {session : Session} {program : Program} {active : List Name}
  {scope : Scope}
  {env bound : Env} {term : Expr} {supply later : NameSupply}
    {generator : Generator}
  {residual : List Expr} {side : Expr} {pattern : Pattern}

/-- The scan of a single clause is exact. -/
theorem ClauseScan.isExact
    (scan : ClauseScan program scope supply later term generator residual side
      pattern)
    (uniform : session.Uniform)
    (valued : Valued program scope term.freeVars env bound)
    (notGlobal : ∀ name ∈ side.freeVars, scope.isGlobal program name = false) :
    IsExact session program scope env bound term
      (.generated generator residual) := by
  intro _ site site' site'' holds kind rows started started' _ evaluated
    evaluatedSource
  obtain ⟨kind', rows', evaluatedSource', holdsIff⟩ :=
    scan.holds_iff uniform valued
    (List.Subset.refl _) started started' evaluated site''
  rw [evaluatedSource] at evaluatedSource'
  cases evaluatedSource'
  have sameNames (name : Name) (isUnbound : scope.isBound name = false) :
      name ∈ side.freeVars ↔ name ∈ scope.locals program term := by
    rw [Scope.mem_locals, scan.searches.mem_freeVars]
    constructor
    · intro inSide
      exact ⟨.inl inSide, notGlobal name inSide⟩
    · intro isLocal
      obtain ⟨inTerm, notGlobalHere⟩ := isLocal
      refine inTerm.resolve_right fun inSource => ?_
      rw [List.all_eq_true.mp scan.locals name
        (Scope.mem_locals.mpr ⟨inSource, notGlobalHere⟩)] at isUnbound
      cases isUnbound
  rw [holdsIff]
  refine exists_congr fun row => and_congr_right fun _ =>
    exists_congr fun inner =>
    and_congr_right fun _ => and_congr_left fun _ => ?_
  constructor
  · intro gives name isLocal isUnbound
    exact gives name ((sameNames name isUnbound).mpr isLocal) isUnbound
  · intro gives name inSide isUnbound
    exact gives name ((sameNames name isUnbound).mp inSide) isUnbound

variable {joined : Joined} {last : Env}

section Tracks

variable
  (tracks : joined.Tracks session program scope term.freeVars env bound
    term.conjuncts)
  (assigned : Assigned program scope term.freeVars env bound)

include tracks assigned

/-- Where rows reach the right values for the unbound variables, all values are
right. -/
theorem Joined.Tracks.valued_of_reaches
    (reaches : Generator.Reaches session joined.parts bound last)
    (gives : ∀ name ∈ scope.locals program term, scope.isBound name = false →
      last.Gives (session.meaning env) name) :
    Valued program joined.scope term.freeVars env last := by
  have kept {name : Name} (fixed : scope.Fixes program term.freeVars name) :
      last.lookup name = bound.lookup name :=
    reaches.lookup fun part member occurs =>
      tracks.apart part member name occurs fixed
  refine ⟨?_, ?_, assigned.functionFree⟩
  · intro name member isBound
    by_cases wasBound : scope.isBound name = true
    · rw [kept (.inl wasBound)]
      exact assigned.shared name member wasBound
    · obtain ⟨part, inParts, occurs⟩ :=
        ((tracks.isBound name).mp isBound).resolve_left wasBound
      have notGlobal : scope.isGlobal program name = false := by
        rw [← Bool.not_eq_true]
        exact fun isGlobal =>
          tracks.apart part inParts name occurs (.inr ⟨member, isGlobal⟩)
      have isUnbound := Bool.eq_false_iff.mpr wasBound
      exact assigned.exists_shared member isUnbound notGlobal
        (gives name (Scope.mem_locals.mpr ⟨member, notGlobal⟩) isUnbound)
  · intro name member isGlobal
    have wasGlobal := (tracks.isGlobal_iff.mp isGlobal).1
    rw [kept (.inr ⟨member, wasGlobal⟩)]
    exact assigned.global name member wasGlobal

/-- A single generator with the conditions of all clauses is exact. -/
theorem Joined.Tracks.isExact_only {only : Generator}
    (isOnly : joined.parts = [only])
    (produced : ∀ name ∈ scope.locals program term, scope.isBound name = false →
      joined.scope.isBound name = true) :
    IsExact session program scope env bound term
      (.generated only joined.residual) := by
  intro _ site site' site'' holds kind rows started started' started'' evaluated
    evaluatedSource
  have inTurn := Session.inTurn_conjuncts started evaluated
  constructor
  · intro isTrue
    subst isTrue
    have leads := tracks.complete inTurn
    rw [isOnly] at leads
    obtain ⟨inner, scans, valued, hold⟩ := leads site' started'
    obtain ⟨kind', rows', row, evaluatedSource', member, binds⟩ := scans
    rw [evaluatedSource] at evaluatedSource'
    cases evaluatedSource'
    refine ⟨row, member, inner, binds, ?_, ?_⟩
    · intro name isLocal isUnbound
      exact valued.gives (Scope.mem_locals.mp isLocal).1
        (produced name isLocal isUnbound) session
    · intro condition inResidual
      exact hold inner (fun _ _ => rfl) condition inResidual site'' started''
  · intro found
    obtain ⟨row, member, inner, binds, gives, conditions⟩ := found
    have reaches : Generator.Reaches session joined.parts bound inner := by
      rw [isOnly]
      exact .cons started' ⟨kind, rows, row, evaluatedSource, member, binds⟩
        (.nil inner)
    have valued := tracks.valued_of_reaches assigned reaches gives
    exact tracks.sound reaches valued (fun _ _ => rfl)
      (fun condition inResidual =>
      ⟨site'', started'', conditions condition inResidual⟩) inTurn

/-- The join of all generators is exact. -/
theorem Joined.Tracks.isExact_join {outputs : List Name}
    (nonempty : outputs ≠ []) (mem_outputs : ∀ name, name ∈ outputs ↔
      name ∈ scope.locals program term ∧ scope.isBound name = false)
    (produced : ∀ name ∈ outputs, joined.scope.isBound name = true) :
    IsExact session program scope env bound term
      (.generated (.join joined.parts joined.residual outputs) []) := by
  intro _ site site' site'' holds kind rows started started' _ evaluated
    evaluatedSource
  have inTurn := Session.inTurn_conjuncts started evaluated
  have inTerm {name : Name} (isOutput : name ∈ outputs) : name ∈
    term.freeVars :=
    (Scope.mem_locals.mp ((mem_outputs name).mp isOutput).1).1
  constructor
  · intro isTrue
    subst isTrue
    have leads := tracks.complete inTurn
    obtain ⟨last, reached, row, member, inner, binds, keeps⟩ :=
      leads.exists_join_row
      (fun last reached => ⟨reached.2 last fun _ _ => rfl, fun name isOutput =>
        (reached.1.shared name (inTerm isOutput) (produced name isOutput)).imp
        fun _ => And.right⟩)
      nonempty started' evaluatedSource
    refine ⟨row, member, inner, binds, ?_, nofun⟩
    intro name isLocal isUnbound
    have isOutput := (mem_outputs name).mpr ⟨isLocal, isUnbound⟩
    rw [Env.Gives, keeps name isOutput]
    exact reached.1.gives (inTerm isOutput) (produced name isOutput) session
  · intro found
    obtain ⟨row, member, inner, binds, gives, _⟩ := found
    obtain ⟨last, inside, reaches, held, _, evaluatedRow⟩ :=
      Generator.exists_reaches_of_join_row started' evaluatedSource member
    have given : ∀ name ∈ outputs, ∃ value, last.lookup name = some value := by
      intro name isOutput
      have isUnbound := ((mem_outputs name).mp isOutput).2
      have isBound := (tracks.isBound name).mp (produced name isOutput)
      exact reaches.exists_lookup (isBound.resolve_left (by simp [isUnbound]))
    obtain ⟨inner', binds', keeps⟩ :=
      Session.exists_bind_row evaluatedRow nonempty given bound
    have sameInner : inner' = inner := Option.some.inj (binds'.symm.trans binds)
    subst sameInner
    have valued : Valued program joined.scope term.freeVars env last := by
      refine tracks.valued_of_reaches assigned reaches ?_
      intro name isLocal isUnbound
      rw [Env.Gives, ← keeps name ((mem_outputs name).mpr ⟨isLocal, isUnbound⟩)]
      exact gives name isLocal isUnbound
    exact tracks.sound reaches valued (fun _ _ => rfl) held inTurn

end Tracks

/-- Joined clauses are exact. -/
theorem ofJoined_isExact
    (tracks : (∀ part ∈ joined.parts, part.isFinite = true) →
      joined.Tracks session program scope term.freeVars env bound
        term.conjuncts)
    (assigned : Assigned program scope term.freeVars env bound)
    (unbound : (scope.locals program term).all scope.isBound = false) :
    IsExact session program scope env bound term
      (ofJoined (scope.unboundInOrder term (scope.locals program term))
        joined) := by
  have nonempty := Scope.unboundInOrder_ne_nil unbound
  have mem_outputs (name : Name) :
      name ∈ scope.unboundInOrder term (scope.locals program term) ↔
        name ∈ scope.locals program term ∧ scope.isBound name = false := by
    rw [Scope.unboundInOrder, Expr.mem_appearanceOrder, List.mem_filter,
      Bool.not_eq_true']
  rcases ofJoined_cases (scope.unboundInOrder term (scope.locals program term))
    joined with
    ⟨obstacle, isFailed⟩ |
    ⟨produced, ⟨_, isFilter⟩ | ⟨only, isOnly, _, isGenerated⟩ |
      ⟨_, isGenerated⟩⟩
  · rw [isFailed]
    trivial
  · rw [isFilter]
    trivial
  · rw [isGenerated]
    intro finite
    refine (tracks (by simpa [isOnly] using finite)).isExact_only assigned
      isOnly ?_ finite
    intro name isLocal isUnbound
    exact produced name ((mem_outputs name).mpr ⟨isLocal, isUnbound⟩)
  · rw [isGenerated]
    intro finite
    exact (tracks (Generator.isFinite_join.mp finite)).isExact_join assigned
      nonempty mem_outputs produced finite

variable {unfold : Unfolder} {nesting : Nat}

/-- A clause that is inverted as it stands is inverted exactly. -/
theorem ofTerm_isExact_of_direct (uniform : session.Uniform)
    (valued : Valued program scope term.freeVars env bound)
    (direct : isDirect program active scope term = true)
    (reserved : term.freeVars ⊆ supply.used)
    (boundReserved : scope.BindsAmong supply.used) :
    (ofTerm program unfold active nesting scope term).Ensures supply
    fun inversion _ =>
      IsExact session program scope env bound term inversion := by
  obtain ⟨simple, kept, unmixed⟩ := of_isDirect direct
  refine (ofTerm_handles simple kept reserved boundReserved).mono ?_
  intro inversion later _ handled
  cases inversion with
  | generated generator residual =>
      obtain ⟨unbound, _, scans⟩ := handled
      intro finite
      obtain ⟨side, pattern, scan⟩ := scans finite
      have tracks :
        Joined.Tracks session program scope term.freeVars env bound []
          ⟨scope, [], []⟩ :=
        .start valued
      exact scan.isExact uniform valued
        (scan.notGlobal tracks unbound unmixed) finite
  | filter => trivial
  | failed obstacle => trivial

variable (uniform : session.Uniform)
  (valued : Valued program scope term.freeVars env bound)
  (plain : isCompound term = true →
    Assigned program scope term.freeVars env bound)
  (direct : ∀ clause ∈ term.conjuncts,
    isDirect program active scope clause = true)
  (reserved : term.freeVars ⊆ supply.used)
  (boundReserved : scope.BindsAmong supply.used)

include uniform valued plain direct reserved boundReserved

/-- A conjunction of such clauses is inverted exactly. -/
theorem ofTerm_isExact :
    (ofTerm program unfold active nesting scope term).Ensures supply
    fun inversion _ =>
      IsExact session program scope env bound term inversion := by
  cases term with
  | andAlso left right =>
      cases nesting with
      | zero => exact .pure trivial
      | succ nesting =>
          rw [ofTerm]
          split
          · exact .pure trivial
          · next someUnbound =>
              have simple : ∀ clause ∈ (Expr.andAlso left right).conjuncts,
                  isCompound clause = false :=
                fun clause member => (of_isDirect (direct clause member)).1
              refine ofBody_ensures (fun _ _ => trivial)
                (Scope.flatten_conjuncts simple supply) ?_ ?_
              · intro clause later _ isConjuncts
                have isTerm :=
                  Expr.eq_of_conjuncts_eq_singleton isConjuncts.symm
                have absurdity :=
                  simple clause (isConjuncts ▸ List.mem_cons_self)
                rw [isTerm] at absurdity
                cases absurdity
              · intro clauses later grown isConjuncts
                subst isConjuncts
                refine (joinClauses_tracks uniform (plain rfl) direct
                  (fun clause member => Expr.freeVars_of_mem_conjuncts member)
                  (fun _ => .start valued) (List.Subset.trans reserved grown)
                  (boundReserved.mono grown)).mono ?_
                intro result last _ tracks joined isJoined
                exact ofJoined_isExact (tracks joined isJoined) (plain rfl)
                  (Bool.eq_false_iff.mpr someUnbound)
  | _ =>
      exact ofTerm_isExact_of_direct uniform valued
        (direct _ List.mem_cons_self) reserved boundReserved

theorem base_isExact :
    (base program active scope term).Ensures supply fun inversion _ =>
      IsExact session program scope env bound term inversion := by
  rw [base]
  cases program.decls.length with
  | zero | succ unfoldings =>
      exact ofTerm_isExact uniform valued plain direct reserved boundReserved

end Exact

end Inversion

/-- Values without functions for exactly some names. -/
structure Env.Assigns (env : Env) (names : Name → Bool) : Prop where
  domain : ∀ name, (env.lookup name).isSome = names name
  functionFree : ∀ name value, env.lookup name = some value →
    value.isFunctionFree = true

namespace Env.Assigns

variable {env : Env} {names : Name → Bool} {name : Name}

theorem exists_lookup (assigns : env.Assigns names)
    (isNamed : names name = true) : ∃ value, env.lookup name = some value := by
  rw [← Option.isSome_iff_exists, assigns.domain, isNamed]

theorem lookup_eq_none (assigns : env.Assigns names)
    (other : names name = false) : env.lookup name = none := by
  rw [← Option.isNone_iff_eq_none, ← Option.isSome_eq_false_iff, assigns.domain,
    other]

theorem of_entries
    (keys : ∀ name, (env.any fun entry => name == entry.1) = names name)
    (free : ∀ entry ∈ env, entry.2.isFunctionFree = true) :
    env.Assigns names := by
  have isSome_lookup (name : Name) :
      (env.lookup name).isSome = env.any fun entry => name == entry.1 := by
    clear keys free
    induction env with
    | nil => rfl
    | cons entry entries induction =>
        rw [List.lookup_cons, List.any_cons]
        cases name == entry.1 with
        | true => rfl
        | false => rw [Bool.false_or, ← induction]
  exact ⟨fun name => (isSome_lookup name).trans (keys name),
    fun _ _ found => free _ (NameMap.mem_of_lookup found)⟩

end Env.Assigns

namespace Inversion

section Chosen

variable {program : Program} {scope : Scope} {term : Expr} {bound chosen : Env}

/-- The variables of a term for which values are chosen. -/
def isChosen (program : Program) (scope : Scope) (term : Expr) (name : Name) :
    Bool :=
  (scope.locals program term).contains name && !scope.isBound name

theorem isChosen_iff {name : Name} : isChosen program scope term name = true ↔
    name ∈ scope.locals program term ∧ scope.isBound name = false := by
  rw [isChosen, Bool.and_eq_true, List.contains_iff_mem, Bool.not_eq_true']

theorem valued_of_assigns (boundValues : bound.Assigns scope.isBound)
    (chosenValues : chosen.Assigns (isChosen program scope term)) :
    Valued program scope term.freeVars (chosen ++ bound) bound := by
  have notChosen {name : Name}
    (other : isChosen program scope term name = false) :
      (chosen ++ bound).lookup name = bound.lookup name := by
    rw [List.lookup_append, chosenValues.lookup_eq_none other, Option.none_or]
  refine ⟨?_, ?_, ?_⟩
  · intro name _ isBound
    obtain ⟨value, found⟩ := boundValues.exists_lookup isBound
    refine ⟨value, (notChosen ?_).trans found, found⟩
    rw [isChosen, isBound, Bool.not_true, Bool.and_false]
  · intro name _ isGlobal
    have isUnbound : scope.isBound name = false := by
      rw [Scope.isGlobal, Bool.and_eq_true, Bool.and_eq_true] at isGlobal
      simpa using isGlobal.1.2
    have unknown := boundValues.lookup_eq_none isUnbound
    refine ⟨(notChosen ?_).trans unknown, unknown⟩
    rw [← Bool.not_eq_true, isChosen_iff, Scope.mem_locals]
    simp [isGlobal]
  · intro name _ value found
    rw [List.lookup_append, Option.or_eq_some_iff] at found
    rcases found with inChosen | ⟨_, inBound⟩
    · exact chosenValues.functionFree name value inChosen
    · exact boundValues.functionFree name value inBound

theorem assigned_of_assigns (boundValues : bound.Assigns scope.isBound)
    (chosenValues : chosen.Assigns (isChosen program scope term))
    (bagFree : ∀ name value, chosen.lookup name = some value →
      value.toExpr?.isSome = true) :
    Assigned program scope term.freeVars (chosen ++ bound) bound := by
  refine ⟨valued_of_assigns boundValues chosenValues, ?_⟩
  intro name member isUnbound notGlobal
  obtain ⟨value, found⟩ := chosenValues.exists_lookup
    (isChosen_iff.mpr ⟨Scope.mem_locals.mpr ⟨member, notGlobal⟩, isUnbound⟩)
  exact ⟨value, by rw [List.lookup_append, found, Option.some_or],
    bagFree name value found⟩

/-- The right values of all unbound variables are the chosen ones. -/
theorem gives_iff_chosen
    (chosenValues : chosen.Assigns (isChosen program scope term))
    (session : Session) (inner : Env) :
    (∀ name ∈ scope.locals program term, scope.isBound name = false →
      inner.Gives (session.meaning (chosen ++ bound)) name) ↔
    ∀ name value, chosen.lookup name = some value →
      ∃ found, inner.lookup name = some found ∧ found.Alike value := by
  have meaning {name : Name} {value : Value}
    (found : chosen.lookup name = some value) :
      session.meaning (chosen ++ bound) name = value := by
    refine Session.meaning_of_env ?_
    rw [List.lookup_append, found, Option.some_or]
  constructor
  · intro gives name value found
    have named := chosenValues.domain name
    rw [found] at named
    obtain ⟨isLocal, isUnbound⟩ := isChosen_iff.mp named.symm
    rw [← meaning found]
    exact gives name isLocal isUnbound
  · intro agrees name isLocal isUnbound
    obtain ⟨value, found⟩ :=
      chosenValues.exists_lookup (isChosen_iff.mpr ⟨isLocal, isUnbound⟩)
    rw [Env.Gives, meaning found]
    exact agrees name value found

end Chosen

/-- The finite generator of a conjunction has a row with the chosen values of
its variables and true residual conditions exactly if the conjunction is true
for these values.  No clause is an `exists` filter or unfolded, and no pattern
mixes variables with declared names. -/
theorem base_inversion_is_exact {program : Program} {limits : Limits}
    {active : List Name} {scope : Scope} {term : Expr} {supply : NameSupply}
    {generator : Generator} {residual : List Expr} {bound chosen : Env}
    {holds : Bool} {kind : CollectionKind} {rows : List Value}
    {evaluation scan check : Nat}
    (extent : ∀ values, limits.extent = some values → ∀ value ∈ values,
      value.isFunctionFree = true)
    (direct : ∀ clause ∈ term.conjuncts,
      isDirect program active scope clause = true)
    (reserved : term.freeVars ⊆ supply.used)
    (boundReserved : ∀ name, scope.isBound name = true → name ∈ supply.used)
    (inverted : ((base program active scope term).run supply).1 =
      .generated generator residual)
    (finite : generator.isFinite = true)
    (boundValues : bound.Assigns scope.isBound)
    (chosenValues : chosen.Assigns (isChosen program scope term))
    (bagFree : isCompound term = true →
      ∀ name value, chosen.lookup name = some value →
      value.toExpr?.isSome = true)
    (evaluated :
      program.evaluate limits (Session.root evaluation) (chosen ++ bound) term =
      .ok (.bool holds))
    (scanned : program.evaluate limits (Session.root scan) bound
      generator.source = .ok (.collection kind rows)) :
    holds = true ↔
      ∃ row ∈ rows, ∃ inner, generator.pattern.bind row bound = some inner ∧
      (∀ name value, chosen.lookup name = some value →
        ∃ found, inner.lookup name = some found ∧ found.Alike value) ∧
      ∀ condition ∈ residual,
        program.evaluate limits (Session.root check) inner condition =
          .ok (.bool true) := by
  obtain ⟨session, loaded, evaluated⟩ := Outcome.bind_eq_ok_iff.mp evaluated
  have evaluate (site : Site) (env : Env) (expr : Expr) :
      program.evaluate limits site env expr = session.evalIn site env expr := by
    rw [Program.evaluate, loaded]
    rfl
  have exact := (base_isExact (Session.uniform_of_load extent loaded)
    (valued_of_assigns boundValues chosenValues)
    (fun compound =>
      assigned_of_assigns boundValues chosenValues (bagFree compound))
    direct reserved boundReserved).2
  rw [inverted] at exact
  rw [evaluate] at scanned
  rw [exact finite (.root evaluation) (.root scan) (.root check) evaluated
    scanned]
  simp only [evaluate, gives_iff_chosen chosenValues]

/-- A constant and some edges. -/
def markedEdges (edges : List (Int64 × Int64)) : Program :=
  ⟨[.val "k" none (some (.int 1)),
    .val "edges" none
      (some (.list (edges.map fun edge => .tuple [.int edge.1, .int edge.2])))]⟩

/-- Two edges behind each other, the last one to a number above the constant. -/
def twoEdges : Expr :=
  .andAlso
    (.andAlso (.binary .member (.tuple [.var "x", .var "z"]) (.var "edges"))
      (.binary .member (.tuple [.var "z", .var "y"]) (.var "edges")))
    (.binary .lt (.var "k") (.var "y"))

/-- From a bound start, the join has a row for the two edges from one over two
to three. -/
theorem base_inversion_is_exact_two_edges :
    let program := markedEdges [(1, 2), (2, 3)]
    let scope :=
      Scope.initial ["z", "y"] [("x", .singleton (.var "x") (.int 1))]
    let supply := NameSupply.reserving ["x", "y", "z", "k", "edges"]
    let bound : Env := [("x", .int 1)]
    let chosen : Env := [("z", .int 2), ("y", .int 3)]
    ∃ generator rows,
      ((base program [] scope twoEdges).run supply).1 =
      .generated generator [] ∧
      program.evaluate {} (Session.root 0) (chosen ++ bound) twoEdges =
        .ok (.bool true) ∧
      program.evaluate {} (Session.root 1) bound generator.source =
        .ok (.collection .list rows) ∧
      ∃ row ∈ rows, ∃ inner, generator.pattern.bind row bound = some inner ∧
        ∀ name value, chosen.lookup name = some value →
          ∃ found, inner.lookup name = some found ∧ found.Alike value := by
  intro program scope supply bound chosen
  let parts : List Generator :=
    [⟨.tuple [.var "x_1", .var "z"], .var "edges", .list, .finite⟩,
      ⟨.tuple [.var "z_1", .var "y"], .var "edges", .list, .finite⟩]
  let residual : List Expr :=
    [.equals (.var "x_1") (.var "x"), .equals (.var "z_1") (.var "z"),
      .binary .lt (.var "k") (.var "y")]
  let generator : Generator := .join parts residual ["z", "y"]
  have inverted : ((base program [] scope twoEdges).run supply).1 =
    .generated generator [] := by
    decide +kernel
  have evaluated :
    program.evaluate {} (Session.root 0) (chosen ++ bound) twoEdges =
      .ok (.bool true) := by
    rfl
  have scanned : program.evaluate {} (Session.root 1) bound generator.source =
      .ok (.collection .list [.tuple [.int 2, .int 3]]) := by
    rfl
  have isBound (name : Name) : scope.isBound name = (name == "x") := by
    change (List.lookup name [("x", _)]).isSome = _
    rw [List.lookup_cons]
    cases name == "x" <;> rfl
  have locals : scope.locals program twoEdges = ["x", "y", "z"] := by
    decide
  have boundValues : bound.Assigns scope.isBound := by
    refine .of_entries (fun name => ?_) (by decide)
    rw [isBound]
    simp [bound]
  have chosenValues : chosen.Assigns (isChosen program scope twoEdges) := by
    refine .of_entries (fun name => ?_) (by decide)
    rw [isChosen, locals, isBound]
    by_cases equal : name = "x"
    · subst equal
      decide
    · have different : (name == "x") = false := beq_eq_false_iff_ne.mpr equal
      simp only [chosen, List.any_cons, List.any_nil, List.contains_cons,
        List.contains_nil, different, Bool.false_or, Bool.or_false,
        Bool.not_false, Bool.and_true]
      exact Bool.or_comm _ _
  have boundReserved (name : Name) (known : scope.isBound name = true) : name ∈
    supply.used := by
    rw [isBound] at known
    rw [eq_of_beq known]
    exact List.mem_cons_self
  have bagFree (_ : isCompound twoEdges = true) (name : Name) (value : Value)
      (found : chosen.lookup name = some value) : value.toExpr?.isSome =
      true := by
    have all : ∀ entry ∈ chosen, entry.2.toExpr?.isSome = true := by
      decide
    exact all _ (NameMap.mem_of_lookup found)
  obtain ⟨row, member, inner, binds, agrees, _⟩ :=
    (@base_inversion_is_exact program {} [] scope twoEdges supply generator []
      bound chosen true
      .list _ 0 1 2 nofun (by decide) (by decide) boundReserved inverted rfl
        boundValues
      chosenValues bagFree evaluated scanned).mp rfl
  exact ⟨generator, _, inverted, evaluated, scanned, row, member, inner,
    binds, agrees⟩

/-- A declared name in a pattern is bound there and not compared with its value:
the generator has a row for an edge that does not start at the constant. -/
theorem base_inversion_binds_declared_name :
    let program := markedEdges [(1, 2), (3, 4)]
    let term : Expr :=
      .binary .member (.tuple [.var "k", .var "y"]) (.var "edges")
    let supply := NameSupply.reserving ["k", "y", "edges"]
    let chosen : Env := [("y", .int 4)]
    ∃ generator rows,
      ((base program [] (.initial ["y"] []) term).run supply).1 =
      .generated generator [] ∧
      generator.isFinite = true ∧
      program.evaluate {} (Session.root 0) chosen term = .ok (.bool false) ∧
      program.evaluate {} (Session.root 1) [] generator.source =
        .ok (.collection .list rows) ∧
      ∃ row ∈ rows, ∃ inner, generator.pattern.bind row [] = some inner ∧
        ∀ name value, chosen.lookup name = some value →
          inner.lookup name = some value := by
  intro program term supply chosen
  let generator : Generator :=
    ⟨.tuple [.var "k", .var "y"], .var "edges", .list, .finite⟩
  have inverted : ((base program [] (.initial ["y"] []) term).run supply).1 =
      .generated generator [] := by
    decide +kernel
  refine ⟨generator, [.tuple [.int 1, .int 2], .tuple [.int 3, .int 4]],
    inverted, rfl, by rfl, by rfl, .tuple [.int 3, .int 4],
    List.mem_cons_of_mem _ List.mem_cons_self, _, rfl, ?_⟩
  intro name value found
  have isChosen := NameMap.mem_of_lookup found
  cases List.mem_singleton.mp isChosen
  rfl

end Inversion

end RecursiveQuery
