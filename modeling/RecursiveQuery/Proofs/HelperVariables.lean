import RecursiveQuery.Proofs.ClauseSizes
import RecursiveQuery.Proofs.InversionCases
import RecursiveQuery.Proofs.KnownNames

/-!
# Variables of helper predicates

A joined generator is projected onto the variables of its term.  A condition
with a single clause is inverted as it stands, so that the variables of an
`exists` around that clause, and what the body of a function takes from outside,
show up in the pattern.  No other names do, apart from fresh ones.
-/

namespace RecursiveQuery

/-- A single condition that is no conjunction. -/
def Step.areLone : List Step → Bool
  | [.filter condition] => condition.conjuncts.length = 1
  | _ => false

/-- An `exists` whose only clause is its condition. -/
def Query.isLone (query : Query) : Bool :=
  query.scans.all (fun scan => scan.source.isNone) && Step.areLone query.steps

namespace Expr

variable {scans : List Scan} {pattern : Pattern} {source : Expr}
  {body : List Name} {name : Name}

mutual

/-- The variables of all `exists` inside whose only clause is their
condition. -/
def loneVars : Expr → List Name
  | literal _ => []
  | var _ => []
  | tuple items => loneVarsList items
  | list items => loneVarsList items
  | apply function argument => loneVars function ++ loneVars argument
  | lambda _ body => loneVars body
  | andAlso left right => loneVars left ++ loneVars right
  | orElse left right => loneVars left ++ loneVars right
  | binary _ left right => loneVars left ++ loneVars right
  | collect query => loneVarsQuery query
  | existence query =>
      (if query.isLone then query.scanVars else []) ++ loneVarsQuery query

def loneVarsList : List Expr → List Name
  | [] => []
  | item :: items => loneVars item ++ loneVarsList items

def loneVarsQuery : Query → List Name
  | ⟨scans, steps⟩ => loneVarsScans scans ++ loneVarsSteps steps

def loneVarsScans : List Scan → List Name
  | [] => []
  | ⟨_, source⟩ :: scans => loneVarsSource source ++ loneVarsScans scans

def loneVarsSource : Option Expr → List Name
  | none => []
  | some source => loneVars source

def loneVarsSteps : List Step → List Name
  | [] => []
  | .filter condition :: steps => loneVars condition ++ loneVarsSteps steps
  | .yield value :: steps => loneVars value ++ loneVarsSteps steps

end

theorem loneVars_of_mem_scans (member : ⟨pattern, some source⟩ ∈ scans) :
    source.loneVars ⊆ loneVarsScans scans := by
  induction scans with
  | nil => cases member
  | cons scan scans induction =>
      obtain ⟨other, otherSource⟩ := scan
      rcases List.mem_cons.mp member with equal | later
      · cases equal
        exact List.subset_append_left _ _
      · exact List.subset_append_of_subset_right _ (induction later)

theorem loneVars_of_mem_steps {steps : List Step} {condition : Expr}
    (member : .filter condition ∈ steps) :
    condition.loneVars ⊆ loneVarsSteps steps := by
  induction steps with
  | nil => cases member
  | cons step steps induction =>
      rcases List.mem_cons.mp member with rfl | later
      · exact List.subset_append_left _ _
      · cases step with
        | filter other | yield other =>
            exact List.subset_append_of_subset_right _ (induction later)

mutual

theorem loneVars_of_toExpr? {pattern : Pattern} {expr : Expr}
    (rebuilt : pattern.toExpr? = some expr) : expr.loneVars = [] := by
  match pattern with
  | .wildcard => cases rebuilt
  | .var name | .literal value =>
      cases rebuilt
      rfl
  | .tuple items =>
      obtain ⟨exprs, found, rfl⟩ := Option.map_eq_some_iff.mp rebuilt
      exact loneVars_of_toExprs? found

theorem loneVars_of_toExprs? {patterns : List Pattern} {exprs : List Expr}
    (rebuilt : Pattern.toExprs? patterns = some exprs) :
    loneVarsList exprs = [] := by
  match patterns with
  | [] =>
      cases rebuilt
      rfl
  | pattern :: patterns =>
      rw [Pattern.toExprs?] at rebuilt
      split at rebuilt
      · next expr rest foundFirst foundRest =>
          cases rebuilt
          rw [loneVarsList, loneVars_of_toExpr? foundFirst,
            loneVars_of_toExprs? foundRest]
          rfl
      · cases rebuilt

end

/-- The clauses of a filter have no more such variables than the filter. -/
theorem loneVars_of_filterClauses {query : Query} {clauses : List Expr}
    (apart : query.filterClauses? = some clauses) {clause : Expr}
    (member : clause ∈ clauses) : clause.loneVars ⊆ loneVarsQuery query := by
  obtain ⟨scans, steps⟩ := query
  rcases Query.mem_filterClauses? apart clause member with
    ⟨pattern, source, row, inScans, rebuilt, rfl⟩ | inSteps
  · rw [loneVars, loneVars_of_toExpr? rebuilt]
    exact List.subset_append_of_subset_left _ (loneVars_of_mem_scans inScans)
  · exact List.subset_append_of_subset_right _ (loneVars_of_mem_steps inSteps)

theorem mem_freeVarsScans (member : name ∈ body)
    (unbound : name ∉ Scan.bound scans) :
    name ∈ freeVarsScans scans body := by
  induction scans with
  | nil => exact member
  | cons scan scans induction =>
      obtain ⟨pattern, source⟩ := scan
      rw [Scan.bound, List.flatMap_cons, List.mem_append, not_or] at unbound
      rw [freeVarsScans_cons]
      exact List.mem_append_right _
        (Name.mem_outside.mpr ⟨induction unbound.2, unbound.1⟩)

/-- What a source mentions, a scan before it binds or the scans mention. -/
theorem mem_freeVarsScans_of_source (inScans : ⟨pattern, some source⟩ ∈ scans)
    (isFree : name ∈ source.freeVars) (unbound : name ∉ Scan.bound scans) :
    name ∈ freeVarsScans scans body := by
  induction scans with
  | nil => cases inScans
  | cons scan scans induction =>
      obtain ⟨first, firstSource⟩ := scan
      rw [Scan.bound, List.flatMap_cons, List.mem_append, not_or] at unbound
      rw [freeVarsScans_cons]
      rcases List.mem_cons.mp inScans with isFirst | later
      · cases isFirst
        exact List.mem_append_left _ isFree
      · exact List.mem_append_right _
          (Name.mem_outside.mpr ⟨induction later unbound.2, unbound.1⟩)

end Expr

namespace Query

variable {query : Query} {clause : Expr}

theorem isLone_of_single (apart : query.filterClauses? = some [clause])
    (alone : clause.conjuncts.length = 1) : query.isLone = true := by
  obtain ⟨steps, sourceless⟩ := single_of_filterClauses? apart
  rw [isLone, steps, Bool.and_eq_true]
  refine ⟨?_, decide_eq_true alone⟩
  rw [List.all_eq_true]
  intro scan member
  rw [sourceless scan member]
  rfl

/-- The clauses of a filter mention its variables and its own free names. -/
theorem mem_freeVars_of_filterClauses {clauses : List Expr} {name : Name}
    (apart : query.filterClauses? = some clauses) (member : clause ∈ clauses)
    (isFree : name ∈ clause.freeVars) :
    name ∈ query.scanVars ∨ name ∈ (Expr.existence query).freeVars := by
  obtain ⟨scans, steps⟩ := query
  by_cases scanned : name ∈ Scan.bound scans
  · exact .inl (List.mem_eraseDups.mpr scanned)
  · right
    rcases mem_filterClauses? apart clause member with membership | inSteps
    · obtain ⟨pattern, source, row, inScans, rebuilt, rfl⟩ := membership
      rcases List.mem_append.mp isFree with inRow | inSource
      · rw [(Pattern.names_of_toExpr? rebuilt).1] at inRow
        exact absurd (List.mem_flatMap.mpr ⟨_, inScans, inRow⟩) scanned
      · exact Expr.mem_freeVarsScans_of_source inScans inSource scanned
    · exact Expr.mem_freeVarsScans
        (Expr.mem_freeVarsSteps.mpr ⟨_, inSteps, isFree⟩) scanned

end Query

section Substitution

variable {supply : NameSupply}

/- The names that may show up: fresh ones, and what was allowed before. -/
variable {allowed : Name → Prop}

/-- All names that are not reserved are allowed. -/
def NameSupply.AllowsFresh (supply : NameSupply) (allowed : Name → Prop) :
    Prop :=
  ∀ name ∉ supply.used, allowed name

theorem NameSupply.AllowsFresh.mono {later : NameSupply}
    (new : supply.AllowsFresh allowed) (grown : supply.used ⊆ later.used) :
    later.AllowsFresh allowed :=
  fun name fresh => new name fun used => fresh (grown used)

/-- The variables of lone filters inside replacements are allowed. -/
def Replacements.AllowLone (replacements : Replacements)
    (allowed : Name → Prop) : Prop :=
  ∀ replacement ∈ replacements, ∀ name ∈ replacement.2.loneVars, allowed name

/-- Entering a pattern binds its variables or fresh names, and replaces names by
what they were replaced by, or by names. -/
theorem Pattern.enter_lone (pattern : Pattern) {replacements : Replacements}
    (replaced : replacements.AllowLone allowed) :
    (pattern.enter replacements).Ensures supply fun entered _ =>
      (∀ name ∈ entered.1.occurrences, name ∈ pattern.occurrences ∨
        name ∉ supply.used) ∧ entered.2.AllowLone allowed := by
  refine .bind (Naming.refresh_spec _ supply) ?_
  rintro renames later _ ⟨keys, targets⟩
  refine .pure ⟨?_, ?_⟩
  · intro name member
    rw [Pattern.occurrences_rename] at member
    obtain ⟨old, occurs, rfl⟩ := List.mem_map.mp member
    cases found : renames.lookup old with
    | none =>
        left
        simpa [Name.renamed, found] using occurs
    | some target =>
        right
        simpa [Name.renamed, found] using
          (targets _ (NameMap.mem_of_lookup found)).1
  · intro replacement member
    rcases List.mem_append.mp member with renamed | kept
    · obtain ⟨rename, _, rfl⟩ := List.mem_map.mp renamed
      intro name lone
      cases lone
    · exact replaced replacement (List.mem_filter.mp kept).1

namespace Expr

/-- Substitution turns no conjunction into a single condition. -/
theorem substitute_conjuncts (expr : Expr) (replacements : Replacements)
    (supply : NameSupply) :
    (expr.substitute replacements).Ensures supply fun result _ =>
      result.conjuncts.length = 1 → expr.conjuncts.length = 1 := by
  cases expr with
  | andAlso left right =>
      refine .bind (left.substitute_carries replacements supply) ?_
      intro newLeft later _ _
      refine .bind (right.substitute_carries replacements later) ?_
      intro newRight last _ _
      refine .pure ?_
      intro single
      have leftSome := List.length_pos_iff.mpr newLeft.conjuncts_ne_nil
      have rightSome := List.length_pos_iff.mpr newRight.conjuncts_ne_nil
      rw [conjuncts, List.length_append] at single
      omega
  | _ =>
      exact (substitute_carries _ replacements supply).mono fun _ _ _ _ _ => rfl

mutual

theorem substitute_lone (expr : Expr) {replacements : Replacements}
    {supply : NameSupply} (new : supply.AllowsFresh allowed)
    (replaced : replacements.AllowLone allowed)
    (given : ∀ name ∈ expr.loneVars, allowed name) :
    (expr.substitute replacements).Ensures supply fun result _ =>
      ∀ name ∈ result.loneVars, allowed name := by
  match expr with
  | literal value => exact .pure given
  | var name =>
      refine .pure ?_
      cases found : replacements.lookup name with
      | none => exact given
      | some expr => exact replaced _ (NameMap.mem_of_lookup found)
  | tuple items | list items =>
      refine .bind (substituteList_lone items new replaced given) ?_
      intro results later _ found
      exact .pure found
  | apply left right | andAlso left right | orElse left right
  | binary op left right =>
      obtain ⟨leftGiven, rightGiven⟩ := List.forall_mem_append.mp given
      refine .bind (substitute_lone left new replaced leftGiven) ?_
      intro newLeft later grown leftFound
      refine .bind (substitute_lone right (new.mono grown)
        replaced rightGiven) ?_
      intro newRight last _ rightFound
      exact .pure (List.forall_mem_append.mpr ⟨leftFound, rightFound⟩)
  | lambda param body =>
      refine .bind (param.enter_lone replaced) ?_
      intro entered later grown found
      refine .bind (substitute_lone body (new.mono grown)
        found.2 given) ?_
      intro newBody last _ bodyFound
      exact .pure bodyFound
  | collect query =>
      refine .bind (substituteQuery_lone query new replaced given) ?_
      intro newQuery later _ found
      exact .pure found.1
  | existence query =>
      obtain ⟨ownGiven, insideGiven⟩ := List.forall_mem_append.mp given
      refine .bind (substituteQuery_lone query new replaced insideGiven) ?_
      intro newQuery later _ found
      obtain ⟨inside, lone, scanned⟩ := found
      refine .pure (List.forall_mem_append.mpr ⟨?_, inside⟩)
      intro name member
      split at member
      · next isLone =>
          rcases scanned name member with old | fresh
          · exact ownGiven name (by rwa [if_pos (lone isLone)])
          · exact new name fresh
      · cases member

theorem substituteList_lone (items : List Expr) {replacements : Replacements}
    {supply : NameSupply} (new : supply.AllowsFresh allowed)
    (replaced : replacements.AllowLone allowed)
    (given : ∀ name ∈ loneVarsList items, allowed name) :
    (substituteList replacements items).Ensures supply fun results _ =>
      ∀ name ∈ loneVarsList results, allowed name := by
  match items with
  | [] => exact .pure given
  | item :: items =>
      obtain ⟨itemGiven, restGiven⟩ := List.forall_mem_append.mp given
      refine .bind (substitute_lone item new replaced itemGiven) ?_
      intro newItem later grown itemFound
      refine .bind
        (substituteList_lone items (new.mono grown) replaced restGiven) ?_
      intro newItems last _ restFound
      exact .pure (List.forall_mem_append.mpr ⟨itemFound, restFound⟩)

theorem substituteQuery_lone (query : Query) {replacements : Replacements}
    {supply : NameSupply} (new : supply.AllowsFresh allowed)
    (replaced : replacements.AllowLone allowed)
    (given : ∀ name ∈ loneVarsQuery query, allowed name) :
    (substituteQuery replacements query).Ensures supply fun result _ =>
      (∀ name ∈ loneVarsQuery result, allowed name) ∧
        (result.isLone = true → query.isLone = true) ∧
        ∀ name ∈ result.scanVars, name ∈ query.scanVars ∨
        name ∉ supply.used := by
  match query with
  | ⟨scans, steps⟩ =>
      obtain ⟨scansGiven, stepsGiven⟩ := List.forall_mem_append.mp given
      refine .bind (substituteScans_lone scans new replaced scansGiven) ?_
      intro result later grown found
      obtain ⟨newScans, inner⟩ := result
      obtain ⟨scansFound, innerReplaced, scanned, sourceless⟩ := found
      refine .bind (substituteSteps_lone steps (new.mono grown) innerReplaced
        stepsGiven) ?_
      intro newSteps last _ found
      obtain ⟨stepsFound, -, lone⟩ := found
      refine .pure ⟨List.forall_mem_append.mpr ⟨scansFound, stepsFound⟩, ?_, ?_⟩
      · intro isLone
        rw [Query.isLone, Bool.and_eq_true] at isLone ⊢
        exact ⟨sourceless.symm.trans isLone.1, lone isLone.2⟩
      · intro name member
        exact (scanned name (List.mem_eraseDups.mp member)).imp_left
          List.mem_eraseDups.mpr

theorem substituteScans_lone (scans : List Scan) {replacements : Replacements}
    {supply : NameSupply} (new : supply.AllowsFresh allowed)
    (replaced : replacements.AllowLone allowed)
    (given : ∀ name ∈ loneVarsScans scans, allowed name) :
    (substituteScans replacements scans).Ensures supply fun result _ =>
      (∀ name ∈ loneVarsScans result.1, allowed name) ∧
        result.2.AllowLone allowed ∧
        (∀ name ∈ Scan.bound result.1, name ∈ Scan.bound scans ∨
          name ∉ supply.used) ∧
        result.1.all (fun scan => scan.source.isNone) =
          scans.all (fun scan => scan.source.isNone) := by
  match scans with
  | [] => exact .pure ⟨given, replaced, nofun, rfl⟩
  | ⟨pattern, source⟩ :: scans =>
      obtain ⟨sourceGiven, restGiven⟩ := List.forall_mem_append.mp given
      refine .bind (substituteSource_lone source new replaced sourceGiven) ?_
      intro newSource later grown sourceFound
      have newLater := new.mono grown
      refine .bind (pattern.enter_lone replaced) ?_
      intro entered middle grownMiddle entries
      refine .bind (substituteScans_lone scans (newLater.mono grownMiddle)
        entries.2 restGiven) ?_
      intro result last _ found
      obtain ⟨scansFound, innerReplaced, scanned, sourceless⟩ := found
      refine .pure ⟨List.forall_mem_append.mpr ⟨sourceFound.1, scansFound⟩,
        innerReplaced, ?_, ?_⟩
      · intro name member
        rcases List.mem_append.mp member with inPattern | inScans
        · rcases entries.1 name inPattern with old | fresh
          · exact .inl (List.mem_append_left _ old)
          · exact .inr fun used => fresh (grown used)
        · rcases scanned name inScans with old | fresh
          · exact .inl (List.mem_append_right _ old)
          · exact .inr fun used => fresh (grownMiddle (grown used))
      · rw [List.all_cons, List.all_cons, sourceFound.2, sourceless]

theorem substituteSource_lone (source : Option Expr)
    {replacements : Replacements} {supply : NameSupply}
    (new : supply.AllowsFresh allowed)
    (replaced : replacements.AllowLone allowed)
    (given : ∀ name ∈ loneVarsSource source, allowed name) :
    (substituteSource replacements source).Ensures supply fun result _ =>
      (∀ name ∈ loneVarsSource result, allowed name) ∧
      result.isNone = source.isNone := by
  match source with
  | none => exact .pure ⟨given, rfl⟩
  | some source =>
      refine .bind (substitute_lone source new replaced given) ?_
      intro newSource later _ found
      exact .pure ⟨found, rfl⟩

theorem substituteSteps_lone (steps : List Step) {replacements : Replacements}
    {supply : NameSupply} (new : supply.AllowsFresh allowed)
    (replaced : replacements.AllowLone allowed)
    (given : ∀ name ∈ loneVarsSteps steps, allowed name) :
    (substituteSteps replacements steps).Ensures supply fun result _ =>
      (∀ name ∈ loneVarsSteps result, allowed name) ∧
      result.length = steps.length ∧
        (Step.areLone result = true → Step.areLone steps = true) := by
  match steps with
  | [] => exact .pure ⟨given, rfl, id⟩
  | .filter condition :: steps =>
      obtain ⟨conditionGiven, restGiven⟩ := List.forall_mem_append.mp given
      refine .bind ((substitute_lone condition new replaced conditionGiven).and
        (condition.substitute_conjuncts replacements supply)) ?_
      intro newCondition later grown found
      refine .bind
        (substituteSteps_lone steps (new.mono grown) replaced restGiven) ?_
      intro newSteps last _ restFound
      refine .pure ⟨List.forall_mem_append.mpr ⟨found.1, restFound.1⟩,
        congrArg (· + 1) restFound.2.1, ?_⟩
      intro lone
      cases newSteps with
      | cons => cases lone
      | nil =>
          have none : steps = [] :=
            List.length_eq_zero_iff.mp restFound.2.1.symm
          subst none
          exact decide_eq_true (found.2 (of_decide_eq_true lone))
  | .yield value :: steps =>
      obtain ⟨valueGiven, restGiven⟩ := List.forall_mem_append.mp given
      refine .bind (substitute_lone value new replaced valueGiven) ?_
      intro newValue later grown found
      refine .bind
        (substituteSteps_lone steps (new.mono grown) replaced restGiven) ?_
      intro newSteps last _ restFound
      refine .pure ⟨List.forall_mem_append.mpr ⟨found, restFound.1⟩,
        congrArg (· + 1) restFound.2.1, ?_⟩
      intro lone
      cases lone

end

/-- Renaming makes of a clause one with its variables, its conjuncts and its
renamed free names. -/
theorem renameFree_lone (expr : Expr) (renames : List (Name × Name))
    (new : supply.AllowsFresh allowed)
    (given : ∀ name ∈ expr.loneVars, allowed name) :
    (expr.renameFree renames).Ensures supply fun result _ =>
      (∀ name ∈ result.loneVars, allowed name) ∧
        (result.conjuncts.length = 1 → expr.conjuncts.length = 1) ∧
        ∀ name ∈ result.freeVars, ∃ old ∈ expr.freeVars,
          (Replacements.ofRenames renames).Reaches old name := by
  have replaced : (Replacements.ofRenames renames).AllowLone allowed := by
    intro replacement isRename
    obtain ⟨rename, _, rfl⟩ := List.mem_map.mp isRename
    exact nofun
  refine ((expr.substitute_lone new replaced given).and
    ((expr.substitute_conjuncts _ supply).and
      (expr.substitute_carries _ supply))).mono ?_
  intro result _ _ found
  exact ⟨found.1, found.2.1, found.2.2.only⟩

end Expr

namespace Scope

variable {scope : Scope} {program : Program}
variable {supply : NameSupply} {expr : Expr}

/-- The clauses that a filter is taken apart into.  If there is only one, its
free names are those of the filter, fresh ones, and the variables of a filter
with that clause alone. -/
theorem unwrap_lone {query : Query} (new : supply.AllowsFresh allowed)
    (given : ∀ name ∈ (Expr.existence query).loneVars, allowed name)
    (taken : List Name) :
    (scope.unwrap program query taken).Ensures supply fun unwrapped _ =>
      ∀ clauses ∈ unwrapped.1,
        (∀ clause ∈ clauses, ∀ name ∈ clause.loneVars, allowed name) ∧
        clauses ≠ [] ∧
        ∀ single, clauses = [single] → single.conjuncts.length = 1 →
          (∀ name ∈ (Expr.existence query).freeVars, allowed name) →
            ∀ name ∈ single.freeVars, allowed name := by
  obtain ⟨ownGiven, insideGiven⟩ := List.forall_mem_append.mp given
  refine unwrap_ensures (nameApart_spec query.scanVars taken supply) ?_
  intro clauses apart named later grown spec
  refine (renameClauses_ensures (fun _ _ _ _ _ found => found)
    fun clause member last grownLast => clause.renameFree_lone named.1
      ((new.mono grown).mono grownLast)
      fun name inClause =>
        insideGiven name
          (Expr.loneVars_of_filterClauses apart member inClause)).mono ?_
  intro results last _ related
  refine ⟨?_, ?_, ?_⟩
  · exact forall_mem_of_forall₂ (related.imp fun _ _ found => found.1)
  · exact Query.ne_nil_of_filterClauses apart related
  · rintro single rfl alone freeAllowed name member
    obtain ⟨clause, others, ⟨-, conjuncts, reached⟩, none, rfl⟩ :=
      List.forall₂_cons_right_iff.mp related
    cases none
    obtain ⟨old, inClause, reaches⟩ := reached name member
    rw [Replacements.Reaches, Replacements.lookup_ofRenames] at reaches
    cases found : named.1.lookup old with
    | some target =>
        rw [found] at reaches
        rw [List.mem_singleton.mp reaches]
        exact new target (spec _ (NameMap.mem_of_lookup found)).2.1
    | none =>
        rw [found] at reaches
        rw [List.mem_singleton.mp reaches]
        rcases Query.mem_freeVars_of_filterClauses apart List.mem_cons_self
          inClause with
          scanned | free
        · refine ownGiven old ?_
          rwa [if_pos (Query.isLone_of_single apart (conjuncts alone))]
        · exact freeAllowed old free

/-- An expression that flattens to a single clause is no conjunction, and the
free names of the clause are allowed if those of the expression are. -/
def StandsFor (allowed : Name → Prop) (expr single : Expr) : Prop :=
  expr.conjuncts.length = 1 ∧ ((∀ name ∈ expr.freeVars, allowed name) →
    ∀ name ∈ single.freeVars, allowed name)

def FlattensTo (allowed : Name → Prop) (expr : Expr) (clauses : List Expr) :
    Prop :=
  clauses ≠ [] ∧ ∀ single, clauses = [single] → StandsFor allowed expr single

theorem FlattensTo.alone (single : expr.conjuncts.length = 1) :
    FlattensTo allowed expr [expr] := by
  refine ⟨List.cons_ne_nil _ _, ?_⟩
  rintro other ⟨⟩
  exact ⟨single, id⟩

/-- The nesting that an expression of a given size can have is enough to take it
apart. -/
theorem flattenWithin_lone {start : NameSupply}
    (new : start.AllowsFresh allowed) (grown : start.used ⊆ supply.used)
    (given : ∀ name ∈ expr.loneVars, allowed name) {nesting : Nat}
    (enough : expr.size ≤ nesting) (taken : List Name) :
    (scope.flattenWithin program nesting expr taken).Ensures supply
      fun flat _ => FlattensTo allowed expr flat.1 := by
  induction nesting generalizing expr taken supply with
  | zero => exact absurd enough (Nat.not_le_of_lt expr.size_pos)
  | succ nesting induction =>
      have conjunctsGiven := @Expr.forall_mem_conjuncts
        (fun term => ∀ name ∈ term.loneVars, allowed name)
        (fun _ _ given => List.forall_mem_append.mp given) expr given
      refine (flattenEach_single (StandsFor allowed) ?_ grown taken).mono ?_
      · intro conjunct member taken supply grown
        have conjunctGiven := conjunctsGiven conjunct member
        have conjunctSize := Expr.size_of_mem_conjuncts member
        have single :=
          congrArg List.length (Expr.conjuncts_of_mem_conjuncts member)
        cases conjunct with
        | existence query =>
            refine .bind ((unwrap_lone (new.mono grown) conjunctGiven taken).and
              (unwrap_size query taken supply)) ?_
            intro result later grownLater found
            obtain ⟨unwrapped, taken⟩ := result
            cases unwrapped with
            | none => exact .pure (FlattensTo.alone rfl)
            | some clauses =>
                obtain ⟨clausesGiven, clausesSome, onlyClause⟩ :=
                  found.1 clauses rfl
                have grownStart := List.Subset.trans grown grownLater
                refine (flattenEach_single _
                  (fun clause inClauses taken supply grown =>
                  induction grown (clausesGiven clause inClauses) ?_ taken)
                    grownStart taken).mono ?_
                · have smaller := found.2 clauses rfl clause inClauses
                  omega
                · intro flat last _ each
                  obtain ⟨flatSome, flatSingle⟩ := each
                  refine ⟨flatSome clausesSome, ?_⟩
                  intro single isSingle
                  obtain ⟨clause, only, alone, kept⟩ :=
                    flatSingle single isSingle
                  exact
                    ⟨rfl, fun free => kept (onlyClause clause only alone free)⟩
        | _ => exact .pure (FlattensTo.alone single)
      · intro flat later _ found
        obtain ⟨flatSome, flatSingle⟩ := found
        refine ⟨flatSome expr.conjuncts_ne_nil, ?_⟩
        intro single isSingle
        obtain ⟨conjunct, only, alone, kept⟩ := flatSingle single isSingle
        rw [Expr.eq_of_conjuncts_eq_singleton only] at kept
        exact ⟨by rw [only]; rfl, kept⟩

theorem flatten_lone (new : supply.AllowsFresh allowed)
    (given : ∀ name ∈ expr.loneVars, allowed name) :
    (scope.flatten program expr).Ensures supply fun clauses _ =>
      (∀ clause ∈ clauses, ∀ name ∈ clause.loneVars, allowed name) ∧
        FlattensTo allowed expr clauses := by
  have each := @flatten_ensures scope program
    (fun expr supply => supply.AllowsFresh allowed ∧
      ∀ name ∈ expr.loneVars, allowed name)
    (fun _ _ _ grown given => ⟨given.1.mono grown, given.2⟩)
    (fun expr _ given conjunct member => ⟨given.1, @Expr.forall_mem_conjuncts
      (fun term => ∀ name ∈ term.loneVars, allowed name)
      (fun _ _ given => List.forall_mem_append.mp given) expr given.2 conjunct
      member⟩)
    (fun query taken _ given => (unwrap_lone given.1 given.2 taken).mono
      fun _ _ grown found clauses isResult clause member =>
        ⟨given.1.mono grown, (found clauses isResult).1 clause member⟩)
    expr supply ⟨new, given⟩
  refine .and
    (each.mono fun _ _ _ found clause member => (found clause member).2) ?_
  refine .bind (flattenWithin_lone new (List.Subset.refl _) given
    (Nat.le_refl _) expr.freeVars) ?_
  intro flat later _ found
  exact .pure found

end Scope

namespace Pattern

variable {scope : Scope}

mutual

/-- A freshened pattern has variables of the pattern and fresh ones. -/
theorem freshenFrom_binds (pattern : Pattern) (seen : List Name)
    {supply : NameSupply} (new : supply.AllowsFresh allowed)
    (given : ∀ name ∈ pattern.occurrences, allowed name) :
    (pattern.freshenFrom scope seen).Ensures supply fun result _ =>
      ∀ name ∈ result.1.occurrences, allowed name := by
  cases pattern with
  | wildcard => exact .pure given
  | literal value => exact .pure given
  | var name =>
      rw [freshenFrom]
      split
      · refine .bind (NameSupply.fresh_spec name supply) ?_
        intro target later _ drawn
        refine .pure ?_
        simpa [occurrences] using new target drawn.1
      · exact .pure given
  | tuple items =>
      refine .bind (freshenFromList_binds items seen new given) ?_
      intro result later _ found
      exact .pure found

theorem freshenFromList_binds (items : List Pattern) (seen : List Name)
    {supply : NameSupply} (new : supply.AllowsFresh allowed)
    (given : ∀ name ∈ occurrencesList items, allowed name) :
    (freshenFromList scope items seen).Ensures supply fun result _ =>
      ∀ name ∈ occurrencesList result.1, allowed name := by
  cases items with
  | nil => exact .pure given
  | cons item items =>
      obtain ⟨itemGiven, restGiven⟩ := List.forall_mem_append.mp given
      refine .bind (freshenFrom_binds item seen new itemGiven) ?_
      intro first later grown firstFound
      obtain ⟨newItem, newSeen, equations⟩ := first
      refine .bind (freshenFromList_binds items newSeen
        (new.mono grown) restGiven) ?_
      intro rest last _ restFound
      exact .pure (List.forall_mem_append.mpr ⟨firstFound, restFound⟩)

end

theorem freshen_binds (pattern : Pattern)
    (new : supply.AllowsFresh allowed)
    (given : ∀ name ∈ pattern.occurrences, allowed name) :
    (pattern.freshen scope).Ensures supply fun result _ =>
      ∀ name ∈ result.1.occurrences, allowed name := by
  refine .bind (pattern.freshenFrom_binds [] new given) ?_
  intro result later _ found
  exact .pure found

end Pattern

end Substitution

theorem Expr.names_of_mem_tuple (items : List Expr) :
    ∀ item ∈ items, item.freeVars ⊆ (tuple items).freeVars ∧
      item.loneVars ⊆ (tuple items).loneVars := by
  induction items with
  | nil => exact nofun
  | cons first items induction =>
      intro item member
      rcases List.mem_cons.mp member with rfl | later
      · exact ⟨List.subset_append_left _ _, List.subset_append_left _ _⟩
      · obtain ⟨free, lone⟩ := induction item later
        exact ⟨List.subset_append_of_subset_right _ free,
          List.subset_append_of_subset_right _ lone⟩

theorem Pattern.bindArgument?_names {allowed : Name → Prop} {param : Pattern}
    {argument : Expr} {replacements : Replacements}
    (free : ∀ name ∈ argument.freeVars, allowed name)
    (lone : ∀ name ∈ argument.loneVars, allowed name)
    (bound : param.bindArgument? argument = some replacements) :
    ∀ replacement ∈ replacements,
      (∀ name ∈ replacement.2.freeVars, allowed name) ∧
      ∀ name ∈ replacement.2.loneVars, allowed name := by
  refine @bindArgument?_forall
    (fun expr => (∀ name ∈ expr.freeVars, allowed name) ∧
    ∀ name ∈ expr.loneVars, allowed name) ?_ param argument replacements
    ⟨free, lone⟩ bound
  intro items given item member
  obtain ⟨itemFree, itemLone⟩ := Expr.names_of_mem_tuple items item member
  exact ⟨fun name inItem => given.1 name (itemFree inItem),
    fun name inItem => given.2 name (itemLone inItem)⟩

/-- The names that unfolding a function can show: the variables of a filter with
a single clause in its body, and what the body takes from outside. -/
def Program.Exposes (program : Program) (name : Name) : Prop :=
  ∃ function param body, .function function param body ∈ program.decls ∧
    (name ∈ body.loneVars ∨ name ∈ body.freeVars ∧ name ∉ param.occurrences)

namespace Inversion

variable {term argument : Expr} {function : Name} {outputs : List Name}
  {invert : Scope → Expr → Naming Inversion}

/-- All variables of a generator are allowed. -/
def Binds (allowed : Name → Prop) : Inversion → Prop
  | generated generator _ => ∀ name ∈ generator.pattern.occurrences,
      allowed name
  | _ => True

/-- Generators bind free names of their terms, fresh names, and what is
exposed. -/
def Confines (program : Program) (invert : Scope → Expr → Naming Inversion) :
    Prop :=
  ∀ (allowed : Name → Prop) scope term supply, supply.AllowsFresh allowed →
    (∀ name, program.Exposes name → allowed name) →
    (∀ name ∈ term.loneVars, allowed name) →
    (∀ name ∈ term.freeVars, allowed name) →
    (invert scope term).Ensures supply fun inversion _ =>
    inversion.Binds allowed

variable {program : Program} {scope : Scope} {allowed : Name → Prop}
  {supply : NameSupply}

theorem ofMember_binds {left right : Expr} (new : supply.AllowsFresh allowed)
    (given : ∀ name ∈ left.freeVars, allowed name) :
    (ofMember program scope left right).Ensures supply fun inversion _ =>
      inversion.Binds allowed := by
  rw [ofMember]
  split
  · exact .pure trivial
  · split
    · exact .pure trivial
    · next pattern taken =>
        rw [Expr.freeVars_of_toPattern? taken] at given
        refine .bind (pattern.freshen_binds new given) ?_
        intro result later _ found
        exact .pure found

theorem ofPattern_binds {pattern : Pattern} {value : Expr}
    (new : supply.AllowsFresh allowed)
    (given : ∀ name ∈ pattern.occurrences, allowed name) :
    (ofPattern scope pattern value).Ensures supply fun inversion _ =>
      inversion.Binds allowed := by
  refine .bind (pattern.freshen_binds new given) ?_
  intro result later _ found
  exact .pure found

theorem ofEquality_binds {left right : Expr}
    (new : supply.AllowsFresh allowed)
    (given : ∀ name ∈ left.freeVars ++ right.freeVars, allowed name) :
    (ofEquality program scope term left right).Ensures supply fun inversion _ =>
      inversion.Binds allowed := by
  obtain ⟨leftGiven, rightGiven⟩ := List.forall_mem_append.mp given
  rw [ofEquality]
  split
  · next pattern found =>
      rw [Expr.freeVars_of_toPattern?
        (of_equalityPattern? found).2] at leftGiven
      exact ofPattern_binds new leftGiven
  · split
    · next pattern found =>
        rw [Expr.freeVars_of_toPattern?
          (of_equalityPattern? found).2] at rightGiven
        exact ofPattern_binds new rightGiven
    · exact .pure trivial

theorem ofOpaqueCall_binds (new : supply.AllowsFresh allowed)
    (given : ∀ name ∈ argument.freeVars, allowed name) :
    (ofOpaqueCall scope term function argument).Ensures supply
      fun inversion _ => inversion.Binds allowed := by
  rw [ofOpaqueCall]
  split
  · exact .pure trivial
  · next pattern taken =>
      rw [Expr.freeVars_of_toPattern? taken] at given
      refine .bind (pattern.freshen_binds new given) ?_
      intro result later _ found
      dsimp only
      split
      · exact .pure found
      · exact .pure trivial

/-- Joined clauses are projected onto their outputs. -/
theorem ofJoined_binds (given : ∀ name ∈ outputs, allowed name)
    (joined : Joined) : (ofJoined outputs joined).Binds allowed := by
  rcases ofJoined_cases outputs joined with
    ⟨obstacle, failed⟩ |
    ⟨-, ⟨-, filters⟩ | ⟨only, -, exactly, keeps⟩ | ⟨-, joins⟩⟩
  · rw [failed]
    trivial
  · rw [filters]
    trivial
  · rw [keeps]
    intro name occurs
    rw [← Pattern.mem_vars, exactly] at occurs
    exact given name occurs
  · rw [joins]
    intro name occurs
    exact given name
      (by rwa [Generator.join, Pattern.occurrences_row] at occurs)

/-- Whatever clauses produce, they only draw names. -/
theorem joinClauses_draws (inverts : Confines program invert)
    (clauses : List Expr) (joined : Joined) (supply : NameSupply) :
    (joinClauses invert clauses joined).Ensures supply fun _ _ => True := by
  induction clauses generalizing joined supply with
  | nil => exact .pure trivial
  | cons clause clauses induction =>
      refine .bind
        (inverts (fun _ => True) joined.scope clause supply (fun _ _ => trivial)
        (fun _ _ => trivial) (fun _ _ => trivial) fun _ _ => trivial) ?_
      intro inversion later _ _
      cases inversion with
      | generated generator residual => exact induction _ later
      | filter => exact induction _ later
      | failed obstacle => exact .pure trivial

theorem ofBody_binds (inverts : Confines program invert) {body : Expr}
    (new : supply.AllowsFresh allowed)
    (exposed : ∀ name, program.Exposes name → allowed name)
    (lone : ∀ name ∈ body.loneVars, allowed name)
    (free : ∀ name ∈ body.freeVars, allowed name)
    (given : ∀ name ∈ outputs, allowed name) :
    (ofBody program invert scope body outputs).Ensures supply fun inversion _ =>
      inversion.Binds allowed := by
  refine ofBody_ensures (fun _ _ => trivial) (Scope.flatten_lone new lone) ?_ ?_
  · intro clause later grown flat
    exact inverts allowed scope clause later (new.mono grown) exposed
      (flat.1 clause List.mem_cons_self) ((flat.2.2 clause rfl).2 free)
  · intro clauses later _ _
    refine (joinClauses_draws inverts clauses _ later).mono ?_
    intro result last _ _ joined _
    exact ofJoined_binds given joined

/-- Unfolded bodies bind free names of theirs, outputs, fresh names, and what is
exposed. -/
def Unfolds (program : Program) (unfold : Unfolder) : Prop :=
  ∀ (allowed : Name → Prop) function scope body outputs supply,
    supply.AllowsFresh allowed → (∀ name, program.Exposes name → allowed name) →
    (∀ name ∈ body.loneVars, allowed name) →
    (∀ name ∈ body.freeVars, allowed name) →
    (∀ name ∈ outputs, allowed name) →
    (unfold function scope body outputs).Ensures supply fun inversion _ =>
    inversion.Binds allowed

variable {unfold : Unfolder} {active : List Name}

/-- The body of a call has names of the argument, and names that it exposes. -/
theorem ofCall_binds (unfolds : Unfolds program unfold)
    (new : supply.AllowsFresh allowed)
    (exposed : ∀ name, program.Exposes name → allowed name)
    (lone : ∀ name ∈ argument.loneVars, allowed name)
    (free : ∀ name ∈ argument.freeVars, allowed name)
    (given : ∀ name ∈ outputs, allowed name) :
    (ofCall program unfold active scope term function argument outputs).Ensures
    supply fun inversion _ => inversion.Binds allowed := by
  rw [ofCall]
  split
  · exact .pure trivial
  · split
    · next name param body decl =>
        split
        · exact .pure trivial
        · split
          · exact .pure trivial
          · next replacements bound =>
              have declared := (Program.decl?_eq_some decl).1
              have components := Pattern.bindArgument?_names free lone bound
              have bodyLone : ∀ name ∈ body.loneVars, allowed name :=
                fun name member =>
                exposed name ⟨_, param, body, declared, .inl member⟩
              refine .bind ((body.substitute_lone new (fun replacement member =>
                (components replacement member).2) bodyLone).and
                (body.substitute_carries replacements supply)) ?_
              intro newBody later grown found
              refine unfolds allowed function scope newBody outputs later
                (new.mono grown) exposed found.1 ?_ given
              intro name member
              obtain ⟨old, inBody, reaches⟩ := found.2.only name member
              rw [Replacements.Reaches] at reaches
              cases replaced : replacements.lookup old with
              | some component =>
                  rw [replaced] at reaches
                  exact (components _ (NameMap.mem_of_lookup replaced)).1
                    name reaches
              | none =>
                  rw [replaced] at reaches
                  rw [List.mem_singleton.mp reaches]
                  refine exposed old
                    ⟨_, param, body, declared, .inr ⟨inBody, ?_⟩⟩
                  rw [← Pattern.keys_of_components?
                    (Pattern.bindArgument?_cases bound).1]
                  intro isKey
                  obtain ⟨component, isReplaced⟩ :=
                    NameMap.exists_lookup_of_mem isKey
                  rw [replaced] at isReplaced
                  cases isReplaced
    · exact ofOpaqueCall_binds new free

theorem ofTerm_binds (unfolds : Unfolds program unfold) (nesting : Nat) :
    Confines program (ofTerm program unfold active nesting) := by
  induction nesting with
  | zero =>
      intro allowed scope term supply _ _ _ _
      exact .pure trivial
  | succ nesting induction =>
      intro allowed scope term supply new exposed lone free
      have given :
        ∀ name ∈ scope.unboundInOrder term (scope.locals program term),
          allowed name := by
        intro name member
        have isLocal :=
          (List.mem_filter.mp (Expr.mem_appearanceOrder.mp member)).1
        exact free name (Scope.mem_locals.mp isLocal).1
      rw [ofTerm]
      split
      · exact .pure trivial
      · split
        · exact ofMember_binds new (List.forall_mem_append.mp free).1
        · exact ofEquality_binds new free
        · exact ofBody_binds induction new exposed lone free given
        · exact ofBody_binds induction new exposed lone free given
        · exact ofCall_binds unfolds new exposed
            (List.forall_mem_append.mp lone).2
            (List.forall_mem_append.mp free).2 given
        · exact .pure trivial

theorem within_binds (unfoldings : Nat) (active : List Name) :
    Confines program (within program unfoldings active) := by
  induction unfoldings generalizing active with
  | zero =>
      intro allowed scope term supply
      refine ofTerm_binds ?_ term.size allowed scope term supply
      intro allowed function scope body outputs supply _ _ _ _ _
      exact .pure trivial
  | succ unfoldings induction =>
      intro allowed scope term supply
      refine ofTerm_binds ?_ term.size allowed scope term supply
      intro allowed function scope body outputs supply new exposed lone
        free given
      exact ofBody_binds (induction (function :: active)) new exposed lone
        free given

/-- A generator binds free names of its term, fresh names, and the names that
are exposed: variables of filters with a single clause, in the term or in the
body of a function, and what the body of a function takes from outside. -/
theorem generator_binds_free_or_fresh_or_exposed {term : Expr}
    {generator : Generator} {residual : List Expr}
    (inverted : ((base program active scope term).run supply).1 =
      .generated generator residual) :
    ∀ name ∈ generator.pattern.occurrences,
      name ∈ term.freeVars ∨ name ∉ supply.used ∨ name ∈ term.loneVars ∨
      program.Exposes name := by
  have binds := (within_binds program.decls.length active
    (fun name => name ∈ term.freeVars ∨ name ∉ supply.used ∨
      name ∈ term.loneVars ∨
      program.Exposes name) scope term supply
      (fun name fresh => .inr (.inl fresh))
    (fun name exposed => .inr (.inr (.inr exposed)))
    (fun name lone => .inr (.inr (.inl lone)))
    fun name free => .inl free).2
  have equal :
    ((within program program.decls.length active scope term).run supply).1 =
      .generated generator residual := inverted
  rw [equal] at binds
  exact binds

/-- The program `val e = [(1, 2)]; fun h x = exists z where condition`. -/
def helperOver (condition : Expr) : Program :=
  ⟨[.val "e" none (some (.list [.tuple [.int 1, .int 2]])),
    .function "h" (.var "x")
      (.existence ⟨[⟨.var "z", none⟩], [.filter condition]⟩)]⟩

/-- The condition `(x, z) elem e`. -/
def hasEdge : Expr :=
  .binary .member (.tuple [.var "x", .var "z"]) (.var "e")

/-- Two clauses are joined, and only the variable of the call is left. -/
theorem generator_binds_free_or_fresh_or_exposed_joined :
    let program :=
      helperOver (.andAlso hasEdge (.binary .lt (.var "x") (.var "z")))
    let term : Expr := .apply (.var "h") (.var "x")
    let supply := NameSupply.reserving ["e", "h", "x", "z"]
    ∃ generator residual,
      ((base program [] (.initial ["x"] []) term).run supply).1 =
      .generated generator residual ∧
      generator.pattern = .var "x" ∧
      ∀ name ∈ generator.pattern.occurrences, name ∈ term.freeVars ∨
      name ∉ supply.used ∨ name ∈ term.loneVars ∨ program.Exposes name := by
  intro program term supply
  let generator : Generator :=
    .join [⟨.tuple [.var "x", .var "z"], .var "e", .list, .finite⟩]
      [.binary .lt (.var "x") (.var "z")] ["x"]
  have inverted : ((base program [] (.initial ["x"] []) term).run supply).1 =
      .generated generator [] := rfl
  exact ⟨generator, [], inverted, rfl,
    generator_binds_free_or_fresh_or_exposed inverted⟩

/-- A single clause is not projected: the pattern has the reserved variable of
the helper, which is not free in the call. -/
theorem generator_binds_helper_variable :
    let program := helperOver hasEdge
    let term : Expr := .apply (.var "h") (.var "x")
    let supply := NameSupply.reserving ["e", "h", "x", "z"]
    ((base program [] (.initial ["x"] []) term).run supply).1 =
        .generated ⟨.tuple [.var "x", .var "z"], .var "e", .list, .finite⟩ [] ∧
      "z" ∉ term.freeVars ∧ "z" ∈ supply.used := by
  exact ⟨rfl, by decide, by decide⟩

end Inversion

end RecursiveQuery
