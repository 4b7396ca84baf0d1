import Mathlib.Data.List.Forall2
import RecursiveQuery.Inversion.Clause
import RecursiveQuery.Proofs.NamingRuns

/-!
# Runs of flattening

A property of expressions that survives taking conjunctions and `exists` filters
apart holds of all clauses of a condition.
-/

namespace RecursiveQuery

section FilterMap

variable {α β : Type} {choose : α → Option (Option β)} {items : List α}

theorem exists_of_mem_filterMapM {chosen : List β}
    (found : items.filterMapM choose = some chosen) :
    ∀ result ∈ chosen, ∃ item ∈ items, choose item = some (some result) := by
  induction items generalizing chosen with
  | nil =>
      cases found
      simp
  | cons item items induction =>
      rw [List.filterMapM_cons] at found
      obtain ⟨choice, chose, rest⟩ := Option.bind_eq_some_iff.mp found
      cases choice with
      | none =>
          intro result member
          obtain ⟨other, inItems, choseOther⟩ := induction rest result member
          exact ⟨other, List.mem_cons_of_mem _ inItems, choseOther⟩
      | some first =>
          obtain ⟨others, restFound, equality⟩ :=
            Option.bind_eq_some_iff.mp rest
          cases equality
          intro result member
          rcases List.mem_cons.mp member with rfl | later
          · exact ⟨item, List.mem_cons_self, chose⟩
          · obtain ⟨other, inItems, choseOther⟩ :=
              induction restFound result later
            exact ⟨other, List.mem_cons_of_mem _ inItems, choseOther⟩

theorem forall_of_filterMapM_eq_nil
    (found : items.filterMapM choose = some []) :
    ∀ item ∈ items, choose item = some none := by
  induction items with
  | nil => simp
  | cons item items induction =>
      rw [List.filterMapM_cons] at found
      obtain ⟨choice, chose, rest⟩ := Option.bind_eq_some_iff.mp found
      cases choice with
      | none => exact List.forall_mem_cons.mpr ⟨chose, induction rest⟩
      | some first =>
          obtain ⟨others, -, equality⟩ := Option.bind_eq_some_iff.mp rest
          cases equality

theorem exists_choice_of_mem {chosen : List β}
    (found : items.filterMapM choose = some chosen) :
    ∀ item ∈ items, ∃ choice, choose item = some choice ∧
      ∀ result ∈ choice, result ∈ chosen := by
  induction items generalizing chosen with
  | nil => simp
  | cons item items induction =>
      rw [List.filterMapM_cons] at found
      obtain ⟨choice, chose, rest⟩ := Option.bind_eq_some_iff.mp found
      cases choice with
      | none =>
          exact List.forall_mem_cons.mpr
            ⟨⟨none, chose, by simp⟩, induction rest⟩
      | some first =>
          obtain ⟨others, restFound, equality⟩ :=
            Option.bind_eq_some_iff.mp rest
          cases equality
          refine List.forall_mem_cons.mpr ⟨⟨some first, chose, by simp⟩, ?_⟩
          intro other member
          obtain ⟨choice, choseOther, isChosen⟩ :=
            induction restFound other member
          exact ⟨choice, choseOther, fun result isResult =>
            List.mem_cons_of_mem _ (isChosen result isResult)⟩

end FilterMap

/-- What holds of every second component of a relation. -/
theorem forall_mem_of_forall₂ {α β : Type} {holds : β → Prop} {items : List α}
    {results : List β}
    (related : List.Forall₂ (fun _ result => holds result) items results) :
    ∀ result ∈ results, holds result := by
  induction related with
  | nil => simp
  | cons first _ induction => exact List.forall_mem_cons.mpr ⟨first, induction⟩

namespace Query

variable {query : Query} {clauses : List Expr}

/-- The clauses of an `exists` filter are memberships in its sources and its
conditions. -/
theorem mem_filterClauses? (apart : query.filterClauses? = some clauses) :
    ∀ clause ∈ clauses,
      (∃ pattern source row, ⟨pattern, some source⟩ ∈ query.scans ∧
        pattern.toExpr? = some row ∧ clause = .binary .member row source) ∨
      .filter clause ∈ query.steps := by
  rw [filterClauses?] at apart
  split at apart
  · cases apart
  · obtain ⟨memberships, foundMemberships, equality⟩ :=
      Option.bind_eq_some_iff.mp apart
    cases equality
    intro clause member
    rcases List.mem_append.mp member with membership | condition
    · obtain ⟨⟨pattern, source⟩, inScans, chose⟩ :=
        exists_of_mem_filterMapM foundMemberships clause membership
      cases source with
      | none => cases chose
      | some source =>
          obtain ⟨row, rebuilt, equality⟩ := Option.bind_eq_some_iff.mp chose
          cases equality
          exact .inl ⟨pattern, source, row, inScans, rebuilt, rfl⟩
    · obtain ⟨step, inSteps, chose⟩ := List.mem_filterMap.mp condition
      cases step with
      | filter other =>
          cases chose
          exact .inr inSteps
      | yield value => cases chose

/-- Each scan with a source makes a clause. -/
theorem exists_membership_of_mem (apart : query.filterClauses? = some clauses)
    {pattern : Pattern} {source : Expr}
    (member : ⟨pattern, some source⟩ ∈ query.scans) :
    ∃ row, pattern.toExpr? = some row ∧
      .binary .member row source ∈ clauses := by
  rw [filterClauses?] at apart
  split at apart
  · cases apart
  · obtain ⟨memberships, foundMemberships, equality⟩ :=
      Option.bind_eq_some_iff.mp apart
    cases equality
    obtain ⟨choice, chose, isChosen⟩ :=
      exists_choice_of_mem foundMemberships _ member
    obtain ⟨row, rebuilt, equality⟩ := Option.bind_eq_some_iff.mp chose
    cases equality
    exact ⟨row, rebuilt, List.mem_append_left _ (isChosen _ rfl)⟩

/-- Steps without output are conditions. -/
theorem exists_conditions (filters : query.hasYield = false) :
    ∃ conditions : List Expr, query.steps = conditions.map .filter := by
  obtain ⟨scans, steps⟩ := query
  induction steps with
  | nil => exact ⟨[], rfl⟩
  | cons step steps induction =>
      cases step with
      | filter condition =>
          obtain ⟨conditions, equality⟩ := induction filters
          exact ⟨condition :: conditions,
            congrArg (.filter condition :: ·) equality⟩
      | yield value => cases filters

/-- The clauses of an `exists` filter end with its conditions, of which there is
one at least, and there are others only if it scans a source. -/
theorem filterClauses?_cases (apart : query.filterClauses? = some clauses) :
    ∃ memberships conditions : List Expr, clauses = memberships ++ conditions ∧
      conditions ≠ [] ∧ query.steps = conditions.map .filter ∧
      (memberships = [] → ∀ scan ∈ query.scans, scan.source = none) := by
  rw [filterClauses?] at apart
  split at apart
  · cases apart
  next shape =>
    obtain ⟨filters, some⟩ : query.hasYield = false ∧
      query.hasFilter = true := by
      simpa using shape
    obtain ⟨memberships, found, equality⟩ := Option.bind_eq_some_iff.mp apart
    cases equality
    obtain ⟨conditions, steps⟩ := exists_conditions filters
    refine ⟨memberships, conditions, ?_, ?_, steps, ?_⟩
    · rw [steps, List.filterMap_map]
      exact congrArg (memberships ++ ·) List.filterMap_some
    · rintro rfl
      rw [hasFilter, steps] at some
      cases some
    · rintro rfl ⟨pattern, source⟩ member
      have chose := forall_of_filterMapM_eq_nil found _ member
      cases source with
      | none => rfl
      | some source =>
          obtain ⟨row, -, equality⟩ := Option.bind_eq_some_iff.mp chose
          cases equality

theorem ne_nil_of_filterClauses {results : List Expr}
    {relates : Expr → Expr → Prop}
    (apart : query.filterClauses? = some clauses)
    (related : List.Forall₂ relates clauses results) : results ≠ [] := by
  rintro rfl
  obtain ⟨memberships, conditions, rfl, some, -⟩ := filterClauses?_cases apart
  have none := List.forall₂_nil_right_iff.mp related
  exact some (List.append_eq_nil_iff.mp none).2

/-- An `exists` filter with one clause only scans no source and has no other
condition. -/
theorem single_of_filterClauses? {clause : Expr}
    (apart : query.filterClauses? = some [clause]) :
    query.steps = [.filter clause] ∧
      ∀ scan ∈ query.scans, scan.source = none := by
  obtain ⟨memberships, conditions, together, some, steps, sourceless⟩ :=
    filterClauses?_cases apart
  obtain ⟨rfl, rfl⟩ : memberships = [] ∧ conditions = [clause] := by
    rcases memberships with _ | ⟨first, memberships⟩
    · exact ⟨rfl, together.symm⟩
    · obtain ⟨-, none⟩ := List.cons.inj together
      exact absurd (List.append_eq_nil_iff.mp none.symm).2 some
  exact ⟨steps, sourceless rfl⟩

end Query

namespace Scope

variable {scope : Scope} {program : Program}

/-- The variables of an `exists` that are renamed, each to a name that was
free. -/
theorem nameApart_spec (names taken : List Name) (supply : NameSupply) :
    (scope.nameApart program names taken).Ensures supply fun named later =>
      ∀ rename ∈ named.1, rename.1 ∈ names ∧ rename.2 ∉ supply.used ∧
      rename.2 ∈ later.used := by
  induction names generalizing taken supply with
  | nil => exact .pure nofun
  | cons name names induction =>
      rw [nameApart]
      split
      · refine .bind (NameSupply.fresh_spec name supply) ?_
        rintro target later grown ⟨new, reserved⟩
        refine .bind (induction (target :: taken) later).keeps ?_
        rintro ⟨renames, newTaken⟩ last _ ⟨grownLast, found⟩
        refine .pure (List.forall_mem_cons.mpr
          ⟨⟨List.mem_cons_self, new, grownLast reserved⟩, ?_⟩)
        intro rename member
        obtain ⟨inNames, newTarget, reservedTarget⟩ := found rename member
        exact ⟨List.mem_cons_of_mem _ inNames,
          fun used => newTarget (grown used), reservedTarget⟩
      · refine (induction (name :: taken) supply).mono ?_
        intro named later _ found rename member
        obtain ⟨inNames, newTarget, reservedTarget⟩ := found rename member
        exact ⟨List.mem_cons_of_mem _ inNames, newTarget, reservedTarget⟩

/-- Variables that are renamed get different names. -/
theorem nameApart_distinct (names taken : List Name) (supply : NameSupply) :
    (scope.nameApart program names taken).Ensures supply fun named _ =>
      (named.1.map Prod.snd).Nodup := by
  induction names generalizing taken supply with
  | nil => exact .pure List.nodup_nil
  | cons name names induction =>
      rw [nameApart]
      split
      · refine .bind (NameSupply.fresh_spec name supply) ?_
        intro target later _ drawn
        refine .bind ((nameApart_spec names (target :: taken) later).and
          (induction (target :: taken) later)) ?_
        intro named last _ found
        obtain ⟨targets, distinct⟩ := found
        refine .pure (List.nodup_cons.mpr ⟨?_, distinct⟩)
        intro again
        obtain ⟨rename, member, equal⟩ := List.mem_map.mp again
        have unused := (targets rename member).2.1
        rw [equal] at unused
        exact unused drawn.2
      · exact induction (name :: taken) supply

/-- Renaming clauses one by one relates each to its result, where larger
supplies keep the relation. -/
theorem renameClauses_ensures {relates : Expr → Expr → NameSupply → Prop}
    (kept : ∀ clause result supply later, supply.used ⊆ later.used →
      relates clause result supply → relates clause result later)
    {renames : List (Name × Name)} {clauses : List Expr} {supply : NameSupply}
    (renamed : ∀ clause ∈ clauses, ∀ later, supply.used ⊆ later.used →
      (clause.renameFree renames).Ensures later (relates clause)) :
    (renameClauses renames clauses).Ensures supply fun results later =>
      List.Forall₂ (fun clause result => relates clause result later) clauses
        results := by
  induction clauses generalizing supply with
  | nil => exact .pure .nil
  | cons clause clauses induction =>
      rw [List.forall_mem_cons] at renamed
      refine .bind (renamed.1 supply (List.Subset.refl _)) ?_
      intro first later grown firstRelated
      refine .bind (induction fun other member last grownLast =>
        renamed.2 other member last (List.Subset.trans grown grownLast)) ?_
      intro rest last grownLast restRelated
      exact .pure (.cons (kept clause first later last grownLast firstRelated)
        restRelated)

/-- A filter is taken apart by renaming its clauses. -/
theorem unwrap_ensures {query : Query} {taken : List Name} {supply : NameSupply}
    {named : List (Name × Name) × List Name → NameSupply → Prop}
    {holds : List Expr → NameSupply → Prop}
    (names : (scope.nameApart program query.scanVars taken).Ensures
      supply named)
    (renamed : ∀ clauses, query.filterClauses? = some clauses →
      ∀ result later, supply.used ⊆ later.used → named result later →
        (renameClauses result.1 clauses).Ensures later holds) :
    (scope.unwrap program query taken).Ensures supply fun unwrapped later =>
      ∀ clauses ∈ unwrapped.1, holds clauses later := by
  rw [unwrap]
  cases apart : query.filterClauses? with
  | none => exact .pure nofun
  | some clauses =>
      refine .bind names ?_
      intro result later grown found
      refine .bind (renamed clauses apart result later grown found) ?_
      intro clauses last _ holdsLast
      refine .pure ?_
      intro unwrapped isResult
      cases Option.mem_some.mp isResult
      exact holdsLast

section Flatten

variable {holds : Expr → NameSupply → Prop}
  (kept : ∀ expr supply later, supply.used ⊆ later.used → holds expr supply →
    holds expr later)

include kept

theorem flattenEach_ensures
    {flatten : Expr → (taken : List Name) → Naming (List Expr × List Name)}
    (flattens : ∀ expr taken supply, holds expr supply →
      (flatten expr taken).Ensures supply fun flat later => ∀ clause ∈ flat.1,
      holds clause later)
    {exprs : List Expr} {supply : NameSupply}
    (given : ∀ expr ∈ exprs, holds expr supply) (taken : List Name) :
    (flattenEach flatten exprs taken).Ensures supply fun flat later =>
      ∀ clause ∈ flat.1, holds clause later := by
  induction exprs generalizing taken supply with
  | nil => exact .pure nofun
  | cons expr exprs induction =>
      rw [List.forall_mem_cons] at given
      refine .bind (flattens expr taken supply given.1) ?_
      intro first later grown firstHolds
      refine .bind (induction (fun other member =>
        kept other supply later grown (given.2 other member)) first.2) ?_
      intro rest last grownLast restHolds
      exact .pure (List.forall_mem_append.mpr ⟨fun clause member =>
        kept clause later last grownLast (firstHolds clause member), restHolds⟩)

variable
  (conjuncts : ∀ expr supply, holds expr supply →
    ∀ conjunct ∈ expr.conjuncts, holds conjunct supply)
  (unwraps : ∀ query taken supply, holds (.existence query) supply →
    (scope.unwrap program query taken).Ensures supply fun unwrapped later =>
      ∀ clauses ∈ unwrapped.1, ∀ clause ∈ clauses, holds clause later)

include conjuncts unwraps

theorem flattenWithin_ensures {expr : Expr} {supply : NameSupply}
    (given : holds expr supply) (nesting : Nat) (taken : List Name) :
    (scope.flattenWithin program nesting expr taken).Ensures supply
      fun flat later => ∀ clause ∈ flat.1, holds clause later := by
  induction nesting generalizing expr taken supply with
  | zero => exact .pure (by simpa using given)
  | succ nesting induction =>
      refine flattenEach_ensures kept ?_ (conjuncts expr supply given) taken
      intro conjunct taken supply conjunctHolds
      cases conjunct with
      | existence query =>
          refine .bind (unwraps query taken supply conjunctHolds) ?_
          rintro ⟨unwrapped, taken⟩ later grown found
          cases unwrapped with
          | none =>
              exact .pure
                (by simpa using kept _ supply later grown conjunctHolds)
          | some clauses =>
              exact flattenEach_ensures kept
                (fun _ taken _ given => induction given taken)
                (found clauses rfl) taken
      | _ => exact .pure (by simpa using conjunctHolds)

theorem flatten_ensures {expr : Expr} {supply : NameSupply}
    (given : holds expr supply) :
    (scope.flatten program expr).Ensures supply fun clauses later =>
      ∀ clause ∈ clauses, holds clause later := by
  refine .bind (flattenWithin_ensures kept conjuncts unwraps given expr.size
    expr.freeVars) ?_
  intro flat later _ found
  exact .pure found

end Flatten

end Scope

end RecursiveQuery
