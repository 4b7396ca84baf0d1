import RecursiveQuery.Proofs.Nameless

/-!
# Substitution captures nothing

Substitution commutes with the passage to nameless forms, where free names are
replaced without any care for binders.  Along the way into an expression a name
is either bound by a binder that has a counterpart in the result, perhaps under
another name, or it still stands for its replacement, of which nothing is
captured.
-/

namespace RecursiveQuery

variable {names : List Name} {change : Name → Name}

theorem idxOf_map_of_injective {name : Name}
    (injective : ∀ other ∈ names, change other = change name → other = name) :
    (names.map change).idxOf (change name) = names.idxOf name := by
  induction names with
  | nil => rfl
  | cons head names induction =>
      rw [List.forall_mem_cons] at injective
      by_cases equal : head = name
      · simp [equal]
      · have different : change head ≠ change name :=
          fun same => equal (injective.1 same)
        rw [List.map_cons, List.idxOf_cons_ne _ different,
          List.idxOf_cons_ne _ equal, induction injective.2]

namespace Pattern

mutual

theorem numbered_rename {change : Name → Name} {scope : List Name}
    (pattern : Pattern)
    (injective : ∀ name ∈ pattern.occurrences, ∀ other ∈ scope,
      change other = change name → other = name) :
    (pattern.rename change).numbered (scope.map change) =
    pattern.numbered scope := by
  cases pattern with
  | wildcard => rfl
  | literal value => rfl
  | var name =>
      have place := idxOf_map_of_injective (injective name List.mem_cons_self)
      simp [rename, numbered, place]
  | tuple items => simp [rename, numbered, numberedList_rename items injective]

theorem numberedList_rename {change : Name → Name} {scope : List Name}
    (items : List Pattern)
    (injective : ∀ name ∈ occurrencesList items, ∀ other ∈ scope,
      change other = change name → other = name) :
    numberedList (scope.map change) (renameList change items) =
      numberedList scope items := by
  cases items with
  | nil => rfl
  | cons item items =>
      obtain ⟨itemInjective, restInjective⟩ :=
        List.forall_mem_append.mp injective
      simp [renameList, numberedList, numbered_rename item itemInjective,
        numberedList_rename items restInjective]

end

/-- Renaming the variables of a pattern apart keeps its nameless form. -/
theorem Avoids.nameless_rename {pattern : Pattern} {meant : Name → Expr}
    (avoids : pattern.Avoids meant change names) :
    (pattern.rename change).nameless = pattern.nameless := by
  rw [nameless, occurrences_rename]
  apply numbered_rename
  intro name occurs other otherOccurs equal
  exact avoids.distinct other otherOccurs name occurs equal

end Pattern

/-- What a name stands for inside binders and their counterparts: a bound
variable stands for the variable at the same place, and any other name for what
it stands for outside, of which nothing is captured. -/
inductive Name.StandsFor (outer meant : Name → Expr)
    (scopes others : List (List Name)) (name : Name) : Prop where
  | bound {outward number : Nat} {target : Name} :
      name.resolve scopes = .bound outward number → meant name = .var target →
      target.resolve others = .bound outward number →
        StandsFor outer meant scopes others name
  | free : name.resolve scopes = .free name → meant name = outer name →
      (∀ inside ∈ (outer name).freeVars, inside.resolve others = .free inside) →
      StandsFor outer meant scopes others name

namespace Name.StandsFor

variable {outer meant : Name → Expr} {scopes others : List (List Name)}
  {name : Name}

theorem start : name.StandsFor outer outer [] [] :=
  .free rfl rfl fun _ _ => rfl

/-- Replacing an occurrence of a name gives what the name stands for. -/
theorem namelessIn_eq (stands : name.StandsFor outer meant scopes others) :
    (meant name).namelessIn others =
      Nameless.substitute (fun free => (outer free).nameless)
        (.var (name.resolve scopes)) := by
  cases stands with
  | bound place isVar target =>
      simp [place, isVar, target, Expr.namelessIn, Nameless.substitute]
  | free place unchanged apart =>
      have closed : (outer name).namelessIn others = (outer name).nameless :=
        (outer name).namelessIn_congr apart
      simp [place, unchanged, closed, Nameless.substitute]

/-- The step into a binder whose counterpart has other names. -/
theorem enter {pattern : Pattern} (avoids : pattern.Avoids meant change names)
    (stand : ∀ name ∈ Name.outside pattern.occurrences names,
      name.StandsFor outer meant scopes others) :
    ∀ name ∈ names, name.StandsFor outer (pattern.entered meant change)
      (pattern.occurrences :: scopes)
        ((pattern.rename change).occurrences :: others) := by
  intro name member
  rw [Pattern.occurrences_rename]
  by_cases occurs : name ∈ pattern.occurrences
  · have place : (pattern.occurrences.map change).idxOf (change name) =
        pattern.occurrences.idxOf name := by
      apply idxOf_map_of_injective
      intro other otherOccurs equal
      exact avoids.distinct other otherOccurs name occurs equal
    have renamed :
      (change name).resolve (pattern.occurrences.map change :: others) =
        .bound 0 (pattern.occurrences.idxOf name) := by
      rw [resolve_of_mem _ (List.mem_map_of_mem occurs), place]
    exact .bound (resolve_of_mem _ occurs) (if_pos occurs) renamed
  · have unchanged : pattern.entered meant change name = meant name :=
      if_neg occurs
    have apart : ∀ inside ∈ (meant name).freeVars,
      inside ∉ pattern.occurrences.map change := by
      intro inside isFree captured
      obtain ⟨bound, boundOccurs, rfl⟩ := List.mem_map.mp captured
      exact avoids.captureFree name member occurs bound boundOccurs isFree
    cases stand name (Name.mem_outside.mpr ⟨member, occurs⟩) with
    | @bound outward number target place isVar found =>
        have outside : target ∉ pattern.occurrences.map change := by
          apply apart
          simp [isVar, Expr.freeVars]
        have further : name.resolve (pattern.occurrences :: scopes) =
            .bound (outward + 1) number := by
          rw [resolve_of_not_mem _ occurs, place]
          rfl
        have targetFurther :
          target.resolve (pattern.occurrences.map change :: others) =
            .bound (outward + 1) number := by
          rw [resolve_of_not_mem _ outside, found]
          rfl
        exact .bound further (unchanged.trans isVar) targetFurther
    | free place same found =>
        refine .free ?_ (unchanged.trans same) ?_
        · rw [resolve_of_not_mem _ occurs, place]
          rfl
        · intro inside isFree
          have outside : inside ∉ pattern.occurrences.map change := by
            apply apart
            rwa [same]
          rw [resolve_of_not_mem _ outside, found inside isFree]
          rfl

end Name.StandsFor

namespace Expr

variable {outer : Name → Expr}

mutual

/-- The nameless form of an instance is the one with the free names replaced. -/
theorem namelessIn_of_instance {expr result : Expr} {meant : Name → Expr}
    {scopes others : List (List Name)} (instanced : expr.Instance meant result)
    (stand : ∀ name ∈ expr.freeVars, name.StandsFor outer meant scopes others) :
    result.namelessIn others =
      (expr.namelessIn scopes).substitute fun name =>
        (outer name).nameless := by
  match expr with
  | literal value =>
      cases instanced
      rfl
  | var name =>
      cases instanced
      exact (stand name List.mem_cons_self).namelessIn_eq
  | tuple items | list items =>
      obtain ⟨results, rfl, inside⟩ := instanced
      simp [namelessIn, Nameless.substitute,
        namelessList_of_instance inside stand]
  | apply left right | andAlso left right | orElse left right
  | binary op left right =>
      obtain ⟨newLeft, newRight, rfl, leftInstance, rightInstance⟩ := instanced
      obtain ⟨leftStand, rightStand⟩ := List.forall_mem_append.mp stand
      simp [namelessIn, Nameless.substitute,
        namelessIn_of_instance leftInstance leftStand,
        namelessIn_of_instance rightInstance rightStand]
  | lambda param body =>
      obtain ⟨change, newBody, rfl, avoids, inside⟩ := instanced
      have inner :=
        namelessIn_of_instance inside (Name.StandsFor.enter avoids stand)
      simp [namelessIn, Nameless.substitute, avoids.nameless_rename, inner]
  | collect query | existence query =>
      obtain ⟨newQuery, rfl, inside⟩ := instanced
      simp [namelessIn, Nameless.substitute,
        namelessQuery_of_instance inside stand]
termination_by structural expr

theorem namelessList_of_instance {items results : List Expr}
    {meant : Name → Expr} {scopes others : List (List Name)}
    (instanced : InstanceList meant items results)
    (stand : ∀ name ∈ freeVarsList items,
      name.StandsFor outer meant scopes others) :
    namelessList others results =
      Nameless.substituteList (fun name => (outer name).nameless)
        (namelessList scopes items) := by
  match items with
  | [] =>
      cases instanced
      rfl
  | item :: items =>
      obtain ⟨newItem, newItems, rfl, itemInstance, restInstance⟩ := instanced
      obtain ⟨itemStand, restStand⟩ := List.forall_mem_append.mp stand
      simp [namelessList, Nameless.substituteList,
        namelessIn_of_instance itemInstance itemStand,
        namelessList_of_instance restInstance restStand]
termination_by structural items

theorem namelessQuery_of_instance {query result : Query} {meant : Name → Expr}
    {scopes others : List (List Name)}
    (instanced : InstanceQuery meant query result)
    (stand : ∀ name ∈ freeVarsQuery query,
      name.StandsFor outer meant scopes others) :
    namelessQuery others result =
      Nameless.substituteQuery (fun name => (outer name).nameless)
        (namelessQuery scopes query) := by
  match query with
  | ⟨scans, steps⟩ =>
      obtain ⟨newScans, newSteps⟩ := result
      rw [InstanceQuery] at instanced
      obtain ⟨inner, scansInstance, stepsInstance⟩ := instanced
      exact namelessScans_of_instance scansInstance
        (fun _ _ inside => namelessSteps_of_instance stepsInstance inside) stand
termination_by structural query

theorem namelessScans_of_instance {scans results : List Scan}
    {meant inner : Name → Expr} {body : List Name}
    {finish newFinish : List (List Name) → NamelessQuery}
    {scopes others : List (List Name)}
    (instanced : InstanceScans meant body scans results inner)
    (finishes : ∀ scopes others,
      (∀ name ∈ body, name.StandsFor outer inner scopes others) →
      newFinish others =
        Nameless.substituteQuery (fun name => (outer name).nameless)
          (finish scopes))
    (stand : ∀ name ∈ freeVarsScans scans body,
      name.StandsFor outer meant scopes others) :
    namelessScans newFinish others results =
      Nameless.substituteQuery (fun name => (outer name).nameless)
        (namelessScans finish scopes scans) := by
  match scans with
  | [] =>
      obtain ⟨rfl, rfl⟩ := instanced
      exact finishes scopes others stand
  | ⟨pattern, source⟩ :: scans =>
      rw [InstanceScans] at instanced
      obtain ⟨change, newSource, newScans, rfl, sourceInstance, avoids,
        restInstance⟩ := instanced
      rw [freeVarsScans_cons] at stand
      obtain ⟨sourceStand, innerStand⟩ := List.forall_mem_append.mp stand
      have rest := namelessScans_of_instance restInstance finishes
        (Name.StandsFor.enter avoids innerStand)
      match source with
      | none =>
          cases sourceInstance
          simp [namelessScans, Nameless.substituteQuery, avoids.nameless_rename,
            rest]
      | some source =>
          obtain ⟨newSource, rfl, sourceInstance⟩ := sourceInstance
          simp [namelessScans, Nameless.substituteQuery, avoids.nameless_rename,
            rest, namelessIn_of_instance sourceInstance sourceStand]
termination_by structural scans

theorem namelessSteps_of_instance {steps results : List Step}
    {meant : Name → Expr} {scopes others : List (List Name)}
    (instanced : InstanceSteps meant steps results)
    (stand : ∀ name ∈ freeVarsSteps steps,
      name.StandsFor outer meant scopes others) :
    namelessSteps others results =
      Nameless.substituteQuery (fun name => (outer name).nameless)
        (namelessSteps scopes steps) := by
  match steps with
  | [] =>
      cases instanced
      rfl
  | .filter expr :: steps | .yield expr :: steps =>
      rw [InstanceSteps] at instanced
      obtain ⟨newExpr, newSteps, rfl, exprInstance, restInstance⟩ := instanced
      obtain ⟨exprStand, restStand⟩ := List.forall_mem_append.mp stand
      simp [namelessSteps, Nameless.substituteQuery,
        namelessIn_of_instance exprInstance exprStand,
        namelessSteps_of_instance restInstance restStand]
termination_by structural steps

end

end Expr

/-- The free names of a substituted expression, if no reserved name is given
anew. -/
theorem Replacements.Carries.mem_iff {replacements : Replacements}
    {reserved free result : List Name}
    (carries : replacements.Carries reserved free result)
    (freeReserved : free ⊆ reserved)
    (replacementsReserved : replacements.freeVars ⊆ reserved) (name : Name) :
    name ∈ result ↔ (name ∈ free ∧ replacements.lookup name = none) ∨
      ∃ key ∈ free, ∃ replacement, replacements.lookup key = some replacement ∧
        name ∈ replacement.freeVars := by
  constructor
  · intro member
    obtain ⟨key, isFree, reaches⟩ := carries.only name member
    rw [Reaches] at reaches
    cases found : replacements.lookup key with
    | none =>
        have same : name = key := by simpa [found, Expr.freeVars] using reaches
        subst same
        exact .inl ⟨isFree, found⟩
    | some replacement =>
        have inside : name ∈ replacement.freeVars := by
          simpa [found] using reaches
        exact .inr ⟨key, isFree, replacement, found, inside⟩
  · intro either
    rcases either with
      ⟨isFree, unreplaced⟩ | ⟨key, isFree, replacement, found, inside⟩
    · apply carries.all name (freeReserved isFree) name isFree
      simp [Reaches, unreplaced, Expr.freeVars]
    · apply carries.all name
        (replacementsReserved (freeVars_of_lookup found inside)) key isFree
      simpa [Reaches, found] using inside

/-- Substitution is the replacement of all free names of the nameless form at
once, and leaves the free names that are not replaced and those of what replaces
the others. -/
theorem substitution_captures_nothing {expr : Expr}
    {replacements : Replacements} {supply : NameSupply}
    (exprReserved : expr.allNames ⊆ supply.used)
    (reserved : replacements.freeVars ⊆ supply.used) :
    let result := ((expr.substitute replacements).run supply).1
    result.nameless = expr.nameless.substitute
      (fun name => (replacements.meant name).nameless) ∧
      ∀ name, name ∈ result.freeVars ↔
        (name ∈ expr.freeVars ∧ replacements.lookup name = none) ∨
          ∃ key ∈ expr.freeVars, ∃ replacement, replacements.lookup key =
            some replacement ∧ name ∈ replacement.freeVars := by
  intro result
  have instanced := (Expr.substitute_instance exprReserved reserved).2
  have carries := (expr.substitute_carries replacements supply).2
  have freeReserved :=
    List.Subset.trans expr.freeVars_subset_allNames exprReserved
  exact ⟨Expr.namelessIn_of_instance instanced fun _ _ => .start,
    carries.mem_iff freeReserved reserved⟩

/-- A variable that is bound twice in a row is renamed twice: `x` becomes `(z,
y)` in `exists z in e, z in [z] where f (x, z)`. -/
theorem substitution_captures_nothing_rebound :
    let filter (first second : Name) (argument : Expr) : Expr :=
      .existence ⟨[⟨.var first, some (.var "e")⟩,
        ⟨.var second, some (.list [.var first])⟩],
        [.filter (.apply (.var "f") (.tuple [argument, .var second]))]⟩
    let pair : Expr := .tuple [.var "z", .var "y"]
    let supply : NameSupply := .reserving ["x", "y", "z", "e", "f"]
    let result :=
      (((filter "z" "z" (.var "x")).substitute [("x", pair)]).run supply).1
    result = filter "z_1" "z_2" pair ∧
      result.nameless = (filter "z" "z" (.var "x")).nameless.substitute
        (fun name => (Replacements.meant [("x", pair)] name).nameless) ∧
      "z" ∈ result.freeVars := by
  intro filter pair supply result
  have captures := @substitution_captures_nothing (filter "z" "z" (.var "x"))
    [("x", pair)] supply (by decide) (by decide)
  refine ⟨by decide +kernel, captures.1,
    (captures.2 "z").mpr (.inr ⟨"x", by decide, pair, ?_⟩)⟩
  decide

end RecursiveQuery
