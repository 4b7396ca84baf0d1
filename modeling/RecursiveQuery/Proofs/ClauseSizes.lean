import RecursiveQuery.Proofs.ClauseNames

/-!
# Sizes of clauses

Replacing names by expressions multiplies the size of an expression at most by
the size of those.  Names have size one, so that the clauses of a filter are
smaller than the filter, and flattening an expression gives smaller clauses
unless it is a clause already.
-/

namespace RecursiveQuery

variable {expr : Expr}

namespace Pattern

mutual

theorem size_rename (change : Name → Name) (pattern : Pattern) :
    (pattern.rename change).size = pattern.size := by
  cases pattern with
  | wildcard => rfl
  | var name => rfl
  | literal value => rfl
  | tuple items => exact congrArg (1 + ·) (sizeList_rename change items)

theorem sizeList_rename (change : Name → Name) (items : List Pattern) :
    sizeList (renameList change items) = sizeList items := by
  cases items with
  | nil => rfl
  | cons item items =>
      simp only [renameList, sizeList, size_rename change item,
        sizeList_rename change items]

end

mutual

theorem size_of_toExpr? {pattern : Pattern} {expr : Expr}
    (rebuilt : pattern.toExpr? = some expr) : expr.size = pattern.size := by
  match pattern with
  | wildcard => cases rebuilt
  | var name | literal value =>
      cases rebuilt
      rfl
  | tuple items =>
      obtain ⟨exprs, found, rfl⟩ := Option.map_eq_some_iff.mp rebuilt
      exact congrArg (1 + ·) (sizeList_of_toExprs? found)

theorem sizeList_of_toExprs? {items : List Pattern} {exprs : List Expr}
    (rebuilt : toExprs? items = some exprs) :
    Expr.sizeList exprs = sizeList items := by
  match items with
  | [] =>
      cases rebuilt
      rfl
  | item :: items =>
      rw [toExprs?] at rebuilt
      split at rebuilt
      · next expr rest foundFirst foundRest =>
          cases rebuilt
          rw [Expr.sizeList, sizeList, size_of_toExpr? foundFirst,
            sizeList_of_toExprs? foundRest]
      · cases rebuilt

end

end Pattern

/-- Replacements of names by expressions of at most some size, which is not less
than that of names. -/
structure Replacements.AreWithin (bound : Nat) (replacements : Replacements) :
    Prop where
  positive : 0 < bound
  each : ∀ replacement ∈ replacements, replacement.2.size ≤ bound

theorem Replacements.areWithin_ofRenames (renames : List (Name × Name)) :
    (ofRenames renames).AreWithin 1 where
  positive := Nat.one_pos
  each := by
    intro replacement member
    obtain ⟨rename, _, rfl⟩ := List.mem_map.mp member
    exact Nat.le_refl 1

variable {bound : Nat}

theorem Pattern.enter_size (pattern : Pattern) {replacements : Replacements}
    (within : replacements.AreWithin bound) (supply : NameSupply) :
    (pattern.enter replacements).Ensures supply fun entered _ =>
      entered.1.size = pattern.size ∧ entered.2.AreWithin bound := by
  refine .bind (Naming.refresh_spec _ supply) ?_
  intro renames later _ _
  refine .pure ⟨pattern.size_rename _, within.positive, ?_⟩
  intro replacement member
  rcases List.mem_append.mp member with renamed | kept
  · have single :=
      (Replacements.areWithin_ofRenames renames).each replacement renamed
    exact Nat.le_trans single within.positive
  · exact within.each replacement (List.mem_filter.mp kept).1

namespace Expr

def sizeSource : Option Expr → Nat
  | none => 0
  | some source => source.size

theorem sizeScans_cons (pattern : Pattern) (source : Option Expr)
    (scans : List Scan) : sizeScans (⟨pattern, source⟩ :: scans) =
      1 + pattern.size + sizeSource source + sizeScans scans := by
  cases source <;> rfl

mutual

theorem substitute_size (expr : Expr) {replacements : Replacements}
    (within : replacements.AreWithin bound) (supply : NameSupply) :
    (expr.substitute replacements).Ensures supply fun result _ =>
      result.size ≤ expr.size * bound := by
  have positive := within.positive
  match expr with
  | literal value => exact .pure (by rw [size]; omega)
  | var name =>
      refine .pure ?_
      rw [size, Nat.one_mul]
      cases found : replacements.lookup name with
      | none => exact positive
      | some expr => exact within.each _ (NameMap.mem_of_lookup found)
  | tuple items | list items =>
      refine .bind (substituteList_size items within supply) ?_
      intro results later _ fits
      exact .pure (by simp only [size, Nat.add_mul]; omega)
  | apply left right | andAlso left right | orElse left right
  | binary op left right =>
      refine .bind (substitute_size left within supply) ?_
      intro newLeft later _ leftFits
      refine .bind (substitute_size right within later) ?_
      intro newRight last _ rightFits
      exact .pure (by simp only [size, Nat.add_mul]; omega)
  | lambda param body =>
      refine .bind (param.enter_size within supply) ?_
      intro entered later _ found
      refine .bind (substitute_size body found.2 later) ?_
      intro newBody last _ fits
      have paramFits := Nat.le_mul_of_pos_right param.size positive
      exact .pure (by simp only [size, found.1, Nat.add_mul]; omega)
  | collect query | existence query =>
      refine .bind (substituteQuery_size query within supply) ?_
      intro newQuery later _ fits
      exact .pure (by simp only [size, Nat.add_mul]; omega)

theorem substituteList_size (items : List Expr) {replacements : Replacements}
    (within : replacements.AreWithin bound) (supply : NameSupply) :
    (substituteList replacements items).Ensures supply fun results _ =>
      sizeList results ≤ sizeList items * bound := by
  match items with
  | [] => exact .pure (Nat.zero_le _)
  | item :: items =>
      refine .bind (substitute_size item within supply) ?_
      intro newItem later _ itemFits
      refine .bind (substituteList_size items within later) ?_
      intro newItems last _ restFits
      exact .pure (by simp only [sizeList, Nat.add_mul]; omega)

theorem substituteQuery_size (query : Query) {replacements : Replacements}
    (within : replacements.AreWithin bound) (supply : NameSupply) :
    (substituteQuery replacements query).Ensures supply fun result _ =>
      sizeQuery result ≤ sizeQuery query * bound := by
  match query with
  | ⟨scans, steps⟩ =>
      refine .bind (substituteScans_size scans within supply) ?_
      intro result later _ found
      refine .bind (substituteSteps_size steps found.2 later) ?_
      intro newSteps last _ fits
      exact .pure (by simp only [sizeQuery, Nat.add_mul]; omega)

theorem substituteScans_size (scans : List Scan) {replacements : Replacements}
    (within : replacements.AreWithin bound) (supply : NameSupply) :
    (substituteScans replacements scans).Ensures supply fun result _ =>
      sizeScans result.1 ≤ sizeScans scans * bound ∧
      result.2.AreWithin bound := by
  match scans with
  | [] => exact .pure ⟨Nat.zero_le _, within⟩
  | ⟨pattern, source⟩ :: scans =>
      refine .bind (substituteSource_size source within supply) ?_
      intro newSource later _ sourceFits
      refine .bind (pattern.enter_size within later) ?_
      intro entered middle _ entries
      refine .bind (substituteScans_size scans entries.2 middle) ?_
      intro result last _ found
      refine .pure ⟨?_, found.2⟩
      have positive := within.positive
      have patternFits := Nat.le_mul_of_pos_right pattern.size positive
      simp only [sizeScans_cons, entries.1, Nat.add_mul]
      omega

theorem substituteSource_size (source : Option Expr)
    {replacements : Replacements} (within : replacements.AreWithin bound)
    (supply : NameSupply) :
    (substituteSource replacements source).Ensures supply fun result _ =>
      sizeSource result ≤ sizeSource source * bound := by
  match source with
  | none => exact .pure (Nat.zero_le _)
  | some source =>
      refine .bind (substitute_size source within supply) ?_
      intro newSource later _ fits
      exact .pure fits

theorem substituteSteps_size (steps : List Step) {replacements : Replacements}
    (within : replacements.AreWithin bound) (supply : NameSupply) :
    (substituteSteps replacements steps).Ensures supply fun result _ =>
      sizeSteps result ≤ sizeSteps steps * bound := by
  match steps with
  | [] => exact .pure (Nat.zero_le _)
  | .filter expr :: steps | .yield expr :: steps =>
      refine .bind (substitute_size expr within supply) ?_
      intro newExpr later _ fits
      refine .bind (substituteSteps_size steps within later) ?_
      intro newSteps last _ restFits
      have positive := within.positive
      exact .pure (by simp only [sizeSteps, Nat.add_mul]; omega)

end

theorem size_of_mem_conjuncts {conjunct : Expr}
    (member : conjunct ∈ expr.conjuncts) :
    conjunct.size ≤ expr.size := by
  refine @forall_mem_conjuncts (fun term => term.size ≤ expr.size) ?_ expr
    (Nat.le_refl _) conjunct member
  intro left right fits
  rw [size] at fits
  omega

theorem size_pos (expr : Expr) : 0 < expr.size := by
  cases expr <;> rw [size] <;> omega

theorem size_of_mem_scans {scans : List Scan} {pattern : Pattern}
    {source : Expr} (member : ⟨pattern, some source⟩ ∈ scans) :
    1 + pattern.size + source.size ≤ sizeScans scans := by
  induction scans with
  | nil => cases member
  | cons scan scans induction =>
      obtain ⟨other, otherSource⟩ := scan
      rw [sizeScans_cons]
      rcases List.mem_cons.mp member with equal | later
      · cases equal
        exact Nat.le_add_right _ _
      · have smaller := induction later
        omega

theorem size_of_mem_steps {steps : List Step} {condition : Expr}
    (member : .filter condition ∈ steps) :
    condition.size < sizeSteps steps := by
  induction steps with
  | nil => cases member
  | cons step steps induction =>
      rcases List.mem_cons.mp member with equal | later
      · subst equal
        rw [sizeSteps]
        omega
      · have smaller := induction later
        cases step with
        | filter other | yield other =>
            rw [sizeSteps]
            omega

theorem size_of_mem_items {items : List Expr} {item : Expr}
    (member : item ∈ items) : item.size ≤ sizeList items := by
  induction items with
  | nil => cases member
  | cons first rest induction =>
      rw [sizeList]
      rcases List.mem_cons.mp member with rfl | later
      · exact Nat.le_add_right _ _
      · exact Nat.le_add_left_of_le (induction later)

theorem sizeList_append (first second : List Expr) :
    sizeList (first ++ second) = sizeList first + sizeList second := by
  induction first with
  | nil => exact (Nat.zero_add _).symm
  | cons item items induction =>
      rw [List.cons_append, sizeList, sizeList, induction, Nat.add_assoc]

/-- A disjunction is made of its terms and one node less between them. -/
theorem size_disjunction (first : Expr) (rest : List Expr) :
    (disjunction first rest).size = sizeList (first :: rest) + rest.length := by
  induction rest generalizing first with
  | nil => rfl
  | cons second rest induction =>
      have merged := induction (orElse first second)
      simp only [sizeList, size, List.length_cons] at merged ⊢
      rw [disjunction, List.foldl_cons, ← disjunction]
      omega

theorem size_disjuncts (expr : Expr) :
    expr.size + 1 = sizeList expr.disjuncts + expr.disjuncts.length := by
  fun_induction disjuncts expr with
  | case1 left right leftInduction rightInduction =>
      rw [sizeList_append, List.length_append, size]
      omega
  | case2 => rfl

/-- Both sides of a disjunction are smaller than it. -/
theorem size_of_disjuncts {first second : Expr} {rest : List Expr}
    (arms : expr.disjuncts = first :: second :: rest) :
    first.size < expr.size ∧ (disjunction second rest).size < expr.size := by
  have total := expr.size_disjuncts
  have merged := size_disjunction second rest
  have positive := (disjunction second rest).size_pos
  have firstPositive := first.size_pos
  rw [arms, sizeList, List.length_cons, List.length_cons] at total
  omega

/-- The clauses of a filter are smaller than the filter. -/
theorem size_of_filterClauses {query : Query} {clauses : List Expr}
    (apart : query.filterClauses? = some clauses) :
    ∀ clause ∈ clauses, clause.size < (existence query).size := by
  obtain ⟨scans, steps⟩ := query
  intro clause member
  rw [size, sizeQuery]
  rcases Query.mem_filterClauses? apart clause member with
    ⟨pattern, source, row, inScans, rebuilt, rfl⟩ | inSteps
  · have smaller : 1 + pattern.size + source.size ≤ sizeScans scans :=
      size_of_mem_scans inScans
    rw [size, Pattern.size_of_toExpr? rebuilt]
    omega
  · have smaller : clause.size < sizeSteps steps := size_of_mem_steps inSteps
    omega

end Expr

namespace Scope

variable {scope : Scope} {program : Program}
variable {exprs : List Expr}

/-- Taking a filter apart gives smaller clauses. -/
theorem unwrap_size (query : Query) (taken : List Name) (supply : NameSupply) :
    (scope.unwrap program query taken).Ensures supply fun unwrapped _ =>
      ∀ clauses ∈ unwrapped.1, ∀ clause ∈ clauses, clause.size <
        (Expr.existence query).size := by
  refine unwrap_ensures (nameApart_spec query.scanVars taken supply) ?_
  intro clauses apart named later _ _
  have smaller : ∀ clause ∈ clauses, ∀ last, later.used ⊆ last.used →
      (clause.renameFree named.1).Ensures last fun result _ =>
        result.size < (Expr.existence query).size := by
    intro clause member last _
    refine (clause.substitute_size (Replacements.areWithin_ofRenames named.1)
      last).mono ?_
    intro result _ _ fits
    have smaller := Expr.size_of_filterClauses apart clause member
    omega
  refine (renameClauses_ensures (fun _ _ _ _ _ found => found) smaller).mono ?_
  intro results last _ related
  exact forall_mem_of_forall₂ related

theorem flattenEach_congr
    {first second : Expr → (taken : List Name) → Naming (List Expr × List Name)}
    (same : ∀ expr ∈ exprs, ∀ taken, first expr taken = second expr taken) :
    flattenEach first exprs = flattenEach second exprs := by
  induction exprs with
  | nil => rfl
  | cons expr exprs induction =>
      rw [List.forall_mem_cons] at same
      funext taken
      rw [flattenEach, flattenEach, same.1, induction same.2]

theorem flattenEach_singleton
    (flatten : Expr → (taken : List Name) → Naming (List Expr × List Name))
    (expr : Expr) (taken : List Name) :
    flattenEach flatten [expr] taken = flatten expr taken := by
  simp [flattenEach]

/-- An expression is flattened conjunct by conjunct. -/
theorem flattenWithin_conjuncts (nesting : Nat) (expr : Expr) :
    scope.flattenWithin program (nesting + 1) expr =
      flattenEach (scope.flattenWithin program (nesting + 1))
        expr.conjuncts := by
  refine flattenEach_congr ?_
  intro conjunct member taken
  rw [flattenWithin, Expr.conjuncts_of_mem_conjuncts member,
    flattenEach_singleton]

theorem flattenWithin_below (below : expr.size < bound) (nesting : Nat)
    (taken : List Name) (supply : NameSupply) :
    (scope.flattenWithin program nesting expr taken).Ensures supply
      fun flat _ => ∀ clause ∈ flat.1, clause.size < bound := by
  refine @flattenWithin_ensures scope program (fun expr _ => expr.size < bound)
    (fun _ _ _ _ given => given) ?_ ?_ expr supply below nesting taken
  · intro expr _ below conjunct member
    exact Nat.lt_of_le_of_lt (Expr.size_of_mem_conjuncts member) below
  · intro query taken supply below
    refine (unwrap_size query taken supply).mono ?_
    intro unwrapped _ _ smaller clauses isResult clause member
    exact Nat.lt_trans (smaller clauses isResult clause member) below

theorem flattenEach_below (below : ∀ expr ∈ exprs, expr.size < bound)
    (nesting : Nat) (taken : List Name) (supply : NameSupply) :
    (flattenEach (scope.flattenWithin program nesting) exprs taken).Ensures
      supply fun flat _ => ∀ clause ∈ flat.1, clause.size < bound :=
  @flattenEach_ensures (fun expr _ => expr.size < bound)
    (fun _ _ _ _ given => given) _
    (fun _ taken supply below => flattenWithin_below below nesting taken supply)
    exprs supply below
    taken

/-- Flattening gives the expression itself or smaller clauses. -/
theorem flattenWithin_smaller (nesting : Nat) (expr : Expr) (taken : List Name)
    (supply : NameSupply) :
    (scope.flattenWithin program (nesting + 1) expr taken).Ensures supply
    fun flat _ =>
      flat.1 = [expr] ∨ ∀ clause ∈ flat.1, clause.size < expr.size := by
  cases expr with
  | andAlso left right =>
      have smaller : ∀ conjunct ∈ (Expr.andAlso left right).conjuncts,
          conjunct.size < (Expr.andAlso left right).size := by
        intro conjunct member
        rw [Expr.size]
        rcases List.mem_append.mp member with inLeft | inRight
        · have fits := Expr.size_of_mem_conjuncts inLeft
          omega
        · have fits := Expr.size_of_mem_conjuncts inRight
          omega
      rw [flattenWithin_conjuncts]
      refine (flattenEach_below smaller (nesting + 1) taken supply).mono ?_
      intro flat _ _ below
      exact .inr below
  | existence query =>
      have alone : (Expr.existence query).conjuncts = [.existence query] := rfl
      rw [flattenWithin, alone, flattenEach_singleton]
      refine .bind (unwrap_size query taken supply) ?_
      intro unwrapped later _ smaller
      obtain ⟨unwrapped, taken⟩ := unwrapped
      cases unwrapped with
      | none => exact .pure (.inl rfl)
      | some clauses =>
          refine (flattenEach_below (smaller clauses rfl) nesting taken
            later).mono ?_
          intro flat _ _ below
          exact .inr below
  | _ => exact .pure (.inl rfl)

theorem flatten_smaller (expr : Expr) :
    (scope.flatten program expr).Returns fun clauses =>
      clauses = [expr] ∨ ∀ clause ∈ clauses, clause.size < expr.size := by
  obtain ⟨nesting, isSize⟩ := Nat.exists_eq_add_one.mpr expr.size_pos
  intro supply
  have flattens :=
    @flattenWithin_smaller scope program nesting expr expr.freeVars supply
  rw [← isSize] at flattens
  exact flattens.2

end Scope

end RecursiveQuery
