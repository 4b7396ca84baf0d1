import RecursiveQuery.Proofs.Clauses
import RecursiveQuery.Proofs.Connectives
import RecursiveQuery.Proofs.FreeNames

/-!
# Names of clauses

The names of the clauses of a condition are reserved if those of the condition
are.  A condition that has a single clause mentions no other free names than the
clause does.
-/

namespace RecursiveQuery

namespace Expr

variable {scans : List Scan}

theorem conjuncts_reserved {expr : Expr} {supply : NameSupply}
    (reserved : expr.allNames ⊆ supply.used) :
    ∀ conjunct ∈ expr.conjuncts, conjunct.allNames ⊆ supply.used :=
  @forall_mem_conjuncts (fun term => term.allNames ⊆ supply.used)
    (fun _ _ given => List.append_subset.mp given) expr reserved

theorem disjuncts_reserved {expr first second : Expr} {rest : List Expr}
    {supply : NameSupply} (reserved : expr.allNames ⊆ supply.used)
    (arms : expr.disjuncts = first :: second :: rest) :
    first.allNames ⊆ supply.used ∧
      (disjunction second rest).allNames ⊆ supply.used :=
  @disjuncts_cases (fun term => term.allNames ⊆ supply.used)
    (fun _ _ => List.append_subset) expr first second rest reserved arms

theorem allNames_of_mem_scans {scan : Scan} (member : scan ∈ scans) :
    scan.pattern.occurrences ++ allNamesSource scan.source ⊆
      allNamesScans scans := by
  induction scans with
  | nil => cases member
  | cons first rest induction =>
      obtain ⟨pattern, source⟩ := first
      rw [allNamesScans_cons]
      rcases List.mem_cons.mp member with rfl | later
      · exact List.subset_append_left _ _
      · exact List.subset_append_of_subset_right _ (induction later)

theorem allNames_of_mem_steps {steps : List Step} {step : Step}
    (member : step ∈ steps) : step.expr.allNames ⊆ allNamesSteps steps := by
  induction steps with
  | nil => cases member
  | cons first rest induction =>
      have names : allNamesSteps (first :: rest) =
        first.expr.allNames ++ allNamesSteps rest := by
        cases first <;> rfl
      rw [names]
      rcases List.mem_cons.mp member with rfl | later
      · exact List.subset_append_left _ _
      · exact List.subset_append_of_subset_right _ (induction later)

/-- Scans without a source only take names away. -/
theorem mem_of_mem_freeVarsScans {body : List Name} {name : Name}
    (sourceless : ∀ scan ∈ scans, scan.source = none)
    (member : name ∈ freeVarsScans scans body) :
    name ∈ body ∧ ∀ scan ∈ scans, name ∉ scan.pattern.occurrences := by
  induction scans with
  | nil => exact ⟨member, nofun⟩
  | cons scan scans induction =>
      obtain ⟨pattern, source⟩ := scan
      rw [List.forall_mem_cons] at sourceless
      obtain rfl : source = none := sourceless.1
      obtain ⟨later, unbound⟩ := Name.mem_outside.mp member
      obtain ⟨inBody, others⟩ := induction sourceless.2 later
      exact ⟨inBody, List.forall_mem_cons.mpr ⟨unbound, others⟩⟩

mutual

theorem freeVars_of_toPattern? {side : Expr} {pattern : Pattern}
    (taken : side.toPattern? = some pattern) :
    side.freeVars = pattern.occurrences := by
  cases side with
  | var name =>
      cases taken
      rfl
  | literal value =>
      cases taken
      rfl
  | tuple items =>
      obtain ⟨patterns, takenItems, equality⟩ := Option.map_eq_some_iff.mp taken
      cases equality
      exact freeVars_of_toPatterns? takenItems
  | _ => cases taken

theorem freeVars_of_toPatterns? {items : List Expr} {patterns : List Pattern}
    (taken : toPatterns? items = some patterns) :
    freeVarsList items = Pattern.occurrencesList patterns := by
  cases items with
  | nil =>
      cases taken
      rfl
  | cons item items =>
      rw [toPatterns?] at taken
      split at taken
      · next pattern patterns takenFirst takenRest =>
          cases taken
          rw [freeVarsList, Pattern.occurrencesList,
            freeVars_of_toPattern? takenFirst,
            freeVars_of_toPatterns? takenRest]
      · cases taken

end

end Expr

namespace Pattern

mutual

theorem names_of_toExpr? {pattern : Pattern} {expr : Expr}
    (rebuilt : pattern.toExpr? = some expr) :
    expr.freeVars = pattern.occurrences ∧
      expr.allNames = pattern.occurrences := by
  match pattern with
  | wildcard => cases rebuilt
  | var name =>
      cases rebuilt
      exact ⟨rfl, rfl⟩
  | literal value =>
      cases rebuilt
      exact ⟨rfl, rfl⟩
  | tuple items =>
      obtain ⟨exprs, rebuiltItems, rfl⟩ := Option.map_eq_some_iff.mp rebuilt
      exact names_of_toExprs? rebuiltItems

theorem names_of_toExprs? {items : List Pattern} {exprs : List Expr}
    (rebuilt : toExprs? items = some exprs) :
    Expr.freeVarsList exprs = occurrencesList items ∧
      Expr.allNamesList exprs = occurrencesList items := by
  match items with
  | [] =>
      cases rebuilt
      exact ⟨rfl, rfl⟩
  | item :: items =>
      simp only [toExprs?] at rebuilt
      split at rebuilt
      · next expr exprs rebuiltItem rebuiltItems =>
          cases rebuilt
          obtain ⟨itemFree, itemAll⟩ := names_of_toExpr? rebuiltItem
          obtain ⟨restFree, restAll⟩ := names_of_toExprs? rebuiltItems
          rw [Expr.freeVarsList, Expr.allNamesList, occurrencesList, itemFree,
            itemAll, restFree, restAll]
          exact ⟨rfl, rfl⟩
      · cases rebuilt

end

end Pattern

namespace Scope

variable {scope : Scope} {program : Program}
variable {clauses : List Expr} {supply : NameSupply} {query : Query}
  {expr : Expr}

/-- Renamed clauses have reserved names, and what becomes of their free names is
known. -/
theorem renameClauses_names {renames : List (Name × Name)}
    (targets : ∀ rename ∈ renames, rename.2 ∈ supply.used)
    (reserved : ∀ clause ∈ clauses, clause.allNames ⊆ supply.used) :
    (renameClauses renames clauses).Ensures supply fun renamed later =>
      List.Forall₂ (fun clause result => result.allNames ⊆ later.used ∧
        (Replacements.ofRenames renames).Carries supply.used clause.freeVars
          result.freeVars)
        clauses renamed := by
  refine @renameClauses_ensures
    (fun clause result later => result.allNames ⊆ later.used ∧
    (Replacements.ofRenames renames).Carries supply.used clause.freeVars
    result.freeVars)
    ?_ renames clauses supply ?_
  · rintro clause result later last grown ⟨names, carries⟩
    exact ⟨List.Subset.trans names grown, carries⟩
  · intro clause member later grown
    have replacements : (Replacements.ofRenames renames).Reserved later := by
      intro replacement inReplacements
      obtain ⟨rename, inRenames, rfl⟩ := List.mem_map.mp inReplacements
      intro name isTarget
      rw [List.mem_singleton.mp isTarget]
      exact grown (targets rename inRenames)
    refine ((Expr.substitute_reserved
      (List.Subset.trans (reserved clause member) grown)
      replacements).and (Expr.substitute_carries clause _ later)).mono ?_
    rintro result last _ ⟨names, carries⟩
    exact ⟨names, carries.mono grown⟩

theorem filterClauses_reserved
    (reserved : (Expr.existence query).allNames ⊆ supply.used)
    (apart : query.filterClauses? = some clauses) :
    ∀ clause ∈ clauses, clause.allNames ⊆ supply.used := by
  obtain ⟨scans, steps⟩ := query
  obtain ⟨scansReserved, stepsReserved⟩ := List.append_subset.mp reserved
  intro clause member
  rcases Query.mem_filterClauses? apart clause member with
    ⟨pattern, source, row, inScans, rebuilt, rfl⟩ | inSteps
  · have names : (Expr.binary .member row source).allNames =
        pattern.occurrences ++ source.allNames :=
      congrArg (· ++ source.allNames) (Pattern.names_of_toExpr? rebuilt).2
    rw [names]
    exact List.Subset.trans (Expr.allNames_of_mem_scans inScans) scansReserved
  · exact List.Subset.trans (Expr.allNames_of_mem_steps inSteps) stepsReserved

/-- The free names of an `exists` filter with one clause only. -/
theorem mem_freeVars_of_single {clause : Expr} {name : Name}
    (apart : query.filterClauses? = some [clause])
    (member : name ∈ (Expr.existence query).freeVars) :
    name ∈ clause.freeVars ∧ name ∉ query.scanVars := by
  obtain ⟨steps, sourceless⟩ := Query.single_of_filterClauses? apart
  obtain ⟨scans, _⟩ := query
  cases steps
  obtain ⟨inBody, unbound⟩ := Expr.mem_of_mem_freeVarsScans sourceless member
  refine ⟨by simpa [Expr.freeVarsSteps] using inBody, ?_⟩
  intro scanned
  obtain ⟨scan, inScans, occurs⟩ :=
    List.mem_flatMap.mp (List.mem_eraseDups.mp scanned)
  exact unbound scan inScans occurs

/-- An `exists` filter is taken apart into reserved clauses; if there is only
one, it mentions all free names of the filter. -/
theorem unwrap_names (reserved : (Expr.existence query).allNames ⊆ supply.used)
    (taken : List Name) :
    (scope.unwrap program query taken).Ensures supply fun unwrapped later =>
      ∀ clauses ∈ unwrapped.1,
      (∀ clause ∈ clauses, clause.allNames ⊆ later.used) ∧ clauses ≠ [] ∧
        ∀ single, clauses = [single] →
          (Expr.existence query).freeVars ⊆ single.freeVars := by
  refine unwrap_ensures (nameApart_spec query.scanVars taken supply) ?_
  intro clauses apart named later grown spec
  have clausesReserved :=
    filterClauses_reserved (List.Subset.trans reserved grown) apart
  refine (renameClauses_names (fun rename member => (spec rename member).2.2)
    clausesReserved).mono ?_
  intro renamed last _ related
  refine ⟨?_, ?_, ?_⟩
  · exact forall_mem_of_forall₂ (related.imp fun _ _ found => found.1)
  · exact Query.ne_nil_of_filterClauses apart related
  · rintro single rfl
    obtain ⟨clause, others, ⟨-, carries⟩, none, rfl⟩ :=
      List.forall₂_cons_right_iff.mp related
    cases none
    intro name member
    obtain ⟨inClause, unbound⟩ := mem_freeVars_of_single apart member
    refine carries.all name
      (grown (reserved (Expr.freeVars_subset_allNames _ member))) name
      inClause ?_
    have absent : name ∉ NameMap.keys named.1 := by
      intro isKey
      obtain ⟨rename, inRenames, rfl⟩ := List.mem_map.mp isKey
      exact unbound (spec rename inRenames).1
    rw [Replacements.Reaches, Replacements.lookup_ofRenames,
      NameMap.lookup_eq_none absent]
    exact List.mem_singleton.mpr rfl

theorem flatten_reserved (reserved : expr.allNames ⊆ supply.used) :
    (scope.flatten program expr).Ensures supply fun clauses later =>
      ∀ clause ∈ clauses, clause.allNames ⊆ later.used := by
  refine @flatten_ensures scope program
    (fun expr supply => expr.allNames ⊆ supply.used)
    (fun _ _ _ grown given => List.Subset.trans given grown) ?_ ?_ expr supply
    reserved
  · intro expr supply given
    exact Expr.conjuncts_reserved given
  · intro query taken supply given
    exact (unwrap_names given taken).mono fun _ _ _ found clauses isResult =>
      (found clauses isResult).1

/-- Flattening expressions to a single clause in total means that there is one
expression with one clause. -/
theorem flattenEach_single (alone : Expr → Expr → Prop) {start : NameSupply}
    {flatten : Expr → (taken : List Name) → Naming (List Expr × List Name)}
    {exprs : List Expr}
    (flattens : ∀ expr ∈ exprs, ∀ taken supply, start.used ⊆ supply.used →
      (flatten expr taken).Ensures supply fun flat _ => flat.1 ≠ [] ∧
        ∀ single, flat.1 = [single] → alone expr single)
    (grown : start.used ⊆ supply.used) (taken : List Name) :
    (flattenEach flatten exprs taken).Ensures supply fun flat _ =>
      (exprs ≠ [] → flat.1 ≠ []) ∧ ∀ single, flat.1 = [single] →
        ∃ expr, exprs = [expr] ∧ alone expr single := by
  induction exprs generalizing taken supply with
  | nil => exact .pure ⟨fun some => absurd rfl some, nofun⟩
  | cons expr exprs induction =>
      rw [List.forall_mem_cons] at flattens
      refine .bind (flattens.1 taken supply grown) ?_
      rintro ⟨first, newTaken⟩ later grownLater ⟨firstSome, firstSingle⟩
      refine .bind (induction flattens.2 (List.Subset.trans grown grownLater)
        newTaken) ?_
      rintro ⟨rest, lastTaken⟩ last _ ⟨restSome, -⟩
      refine .pure ⟨fun _ => List.append_ne_nil_of_left_ne_nil firstSome _, ?_⟩
      intro single together
      rcases first with _ | ⟨clause, _ | ⟨second, more⟩⟩
      · exact absurd rfl firstSome
      · obtain ⟨rfl, none⟩ := List.cons.inj together
        have last : exprs = [] := by
          by_contra some
          exact restSome some none
        exact ⟨expr, by rw [last], firstSingle clause rfl⟩
      · cases together

theorem flattenWithin_single (reserved : expr.allNames ⊆ supply.used)
    (nesting : Nat) (taken : List Name) :
    (scope.flattenWithin program nesting expr taken).Ensures supply
    fun flat _ => flat.1 ≠ [] ∧
      ∀ single, flat.1 = [single] → expr.freeVars ⊆ single.freeVars := by
  have alone (clause : Expr) (taken : List Name) (supply : NameSupply) :
      Naming.Ensures (pure ([clause], taken)) supply fun flat _ => flat.1 ≠ [] ∧
        ∀ single, flat.1 = [single] → clause.freeVars ⊆ single.freeVars := by
    refine .pure ⟨List.cons_ne_nil _ _, ?_⟩
    rintro single ⟨⟩
    exact List.Subset.refl _
  induction nesting generalizing expr taken supply with
  | zero => exact alone expr taken supply
  | succ nesting induction =>
      refine
        (flattenEach_single (fun expr single => expr.freeVars ⊆ single.freeVars)
        ?_ (List.Subset.refl _) taken).mono ?_
      · intro conjunct member taken supply grown
        have conjunctReserved := List.Subset.trans
          (Expr.conjuncts_reserved reserved conjunct member) grown
        cases conjunct with
        | existence query =>
            refine .bind (unwrap_names conjunctReserved taken) ?_
            rintro ⟨unwrapped, taken⟩ later grown found
            cases unwrapped with
            | none => exact alone _ taken later
            | some clauses =>
                obtain ⟨clausesReserved, some, onlyClause⟩ := found clauses rfl
                refine (flattenEach_single _ (fun clause member taken _ grown =>
                  induction (List.Subset.trans
                    (clausesReserved clause member) grown)
                    taken) (List.Subset.refl _) taken).mono ?_
                rintro flat last _ ⟨flatSome, flatSingle⟩
                refine ⟨flatSome some, ?_⟩
                intro single isSingle
                obtain ⟨clause, rfl, included⟩ := flatSingle single isSingle
                exact List.Subset.trans (onlyClause clause rfl) included
        | _ => exact alone _ taken supply
      · rintro flat later _ ⟨flatSome, flatSingle⟩
        refine ⟨flatSome expr.conjuncts_ne_nil, ?_⟩
        intro single isSingle
        obtain ⟨conjunct, only, included⟩ := flatSingle single isSingle
        rwa [Expr.eq_of_conjuncts_eq_singleton only] at included

theorem flatten_single (reserved : expr.allNames ⊆ supply.used) :
    (scope.flatten program expr).Ensures supply fun clauses _ =>
      ∀ single, clauses = [single] → expr.freeVars ⊆ single.freeVars := by
  refine .bind (flattenWithin_single reserved expr.size expr.freeVars) ?_
  intro flat later _ found
  exact .pure found.2

end Scope

end RecursiveQuery
