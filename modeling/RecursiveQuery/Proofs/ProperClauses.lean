import RecursiveQuery.Proofs.Clauses
import RecursiveQuery.Proofs.Names
import RecursiveQuery.Proofs.ProperTrees

/-!
# Proper clauses

Fresh names of identifiers are identifiers again, since they end in a digit and
no keyword does.  Substitution therefore keeps trees proper, and so does taking
a condition apart into its clauses.
-/

namespace RecursiveQuery

/-! ## Fresh names -/

theorem isWord_append {text more : List Char} (word : isWord text = true)
    (continuing : ∀ char ∈ more, isWordRest char = true) :
    isWord (text ++ more) = true := by
  obtain ⟨first, rest, rfl, start, restContinuing⟩ := exists_of_isWord word
  simp only [List.cons_append, isWord, start, Bool.true_and, List.all_append,
    Bool.and_eq_true, List.all_eq_true]
  exact ⟨restContinuing, continuing⟩

theorem isWord_of_append {text more : List Char} (nonempty : text ≠ [])
    (word : isWord (text ++ more) = true) : isWord text = true := by
  cases text with
  | nil => exact absurd rfl nonempty
  | cons first rest =>
      simp only [List.cons_append, isWord, List.all_append,
        Bool.and_eq_true] at word ⊢
      exact ⟨word.1, word.2.1⟩

namespace Name

theorem isWord_stem {name : Name} (word : isWord name.toList = true) :
    isWord name.stem.toList = true := by
  rw [stem]
  split
  · next digit digits char rest taken dropped =>
      have split := List.takeWhile_append_dropWhile (p := Char.isDigit)
        (l := name.toList.reverse)
      rw [taken, dropped] at split
      have spelled : name.toList =
          (char :: rest).reverse ++ '_' :: (digit :: digits).reverse := by
        rw [← List.reverse_reverse name.toList, ← split]
        simp
      rw [spelled] at word
      rw [String.toList_ofList]
      exact isWord_of_append (by simp) word
  · exact word

/-- A stem with an index ends in a digit. -/
theorem isIdentifier_indexed {stem : Name} (word : isWord stem.toList = true)
    (index : Nat) : (stem.indexed index).isIdentifier = true := by
  have digits : ∀ char ∈ Nat.toDigits 10 index, char.isDigit = true :=
    fun char member =>
    Nat.isDigit_of_mem_toDigits (by decide) (by decide) member
  have spelled : isWord (stem.indexed index).toList = true := by
    rw [indexed, String.toList_ofList]
    refine isWord_append word ?_
    simp only [List.forall_mem_cons]
    refine ⟨by decide, fun char member => ?_⟩
    simp [isWordRest, Char.isAlphanum, digits char member]
  have notKeyword : stem.indexed index ∉ keywords := by
    have noDigit : (keywords.all fun word =>
        word.toList.getLast?.all fun char => !char.isDigit) = true := by
      decide
    intro isKeyword
    have nonempty : Nat.toDigits 10 index ≠ [] := Nat.toDigits_ne_nil
    have last : (stem.indexed index).toList.getLast? =
        some ((Nat.toDigits 10 index).getLast nonempty) := by
      rw [indexed, String.toList_ofList,
        List.getLast?_append_of_ne_nil _ (by simp), List.getLast?_cons,
        List.getLast?_eq_some_getLast nonempty]
      rfl
    have isDigit := digits _ (List.getLast_mem nonempty)
    have ends := List.all_eq_true.mp noDigit _ isKeyword
    rw [last, Option.all_some, isDigit] at ends
    cases ends
  simpa [isIdentifier, spelled] using notKeyword

end Name

namespace NameSupply

variable {base : Name}

theorem exists_firstFree_eq (supply : NameSupply) (stem : Name)
    (tries index : Nat) :
    ∃ offset, supply.firstFree stem tries index = stem.indexed offset := by
  induction tries generalizing index with
  | zero => exact ⟨index, rfl⟩
  | succ tries induction =>
      rw [firstFree]
      split
      · exact induction (index + 1)
      · exact ⟨index, rfl⟩

theorem isIdentifier_freshName (supply : NameSupply)
    (identifier : base.isIdentifier = true) :
    (supply.freshName base).isIdentifier = true := by
  obtain ⟨index, equality⟩ :=
    supply.exists_firstFree_eq base.stem supply.used.length 1
  rw [freshName, equality]
  exact Name.isIdentifier_indexed
    (Name.isWord_stem (Reader.isWord_of_isIdentifier identifier)) index

theorem fresh_proper (supply : NameSupply)
    (identifier : base.isIdentifier = true) :
    (fresh base).Ensures supply fun name _ => name.isIdentifier = true :=
  .fresh (supply.isIdentifier_freshName identifier)

theorem acquire_proper (supply : NameSupply) (base : Name)
    (identifier : base.isIdentifier = true) :
    (acquire base).Ensures supply fun name _ => name.isIdentifier = true :=
  .acquire (fun _ => identifier) (supply.isIdentifier_freshName identifier)

end NameSupply

/-! ## Substitution -/

/-- New names that are identifiers. -/
def ProperRenames (renames : List (Name × Name)) : Prop :=
  ∀ rename ∈ renames, rename.2.isIdentifier = true

/-- All replacements are proper. -/
def Replacements.Proper (replacements : Replacements) : Prop :=
  ∀ replacement ∈ replacements, replacement.2.Proper

theorem Replacements.Proper.of_lookup {replacements : Replacements}
    {name : Name} {expr : Expr} (proper : replacements.Proper)
    (found : replacements.lookup name = some expr) : expr.Proper := by
  induction replacements with
  | nil => cases found
  | cons entry entries induction =>
      obtain ⟨key, value⟩ := entry
      simp only [Proper, List.forall_mem_cons] at proper
      rw [List.lookup_cons] at found
      split at found
      · cases found
        exact proper.1
      · exact induction proper.2 found

theorem ProperRenames.proper {renames : List (Name × Name)}
    (identifiers : ProperRenames renames) :
    (Replacements.ofRenames renames).Proper := by
  intro replacement member
  obtain ⟨rename, inRenames, rfl⟩ := List.mem_map.mp member
  exact Expr.proper_var.mpr (identifiers rename inRenames)

theorem ProperRenames.renamed {renames : List (Name × Name)} {name : Name}
    (identifiers : ProperRenames renames)
    (identifier : name.isIdentifier = true) :
    (Name.renamed renames name).isIdentifier = true := by
  rw [Name.renamed]
  cases found : renames.lookup name with
  | none => exact identifier
  | some target =>
      obtain ⟨before, after, rfl, _⟩ := List.lookup_eq_some_iff.mp found
      exact identifiers (name, target) (by simp)

theorem Naming.refresh_proper {names : List Name}
    (identifiers : ∀ name ∈ names, name.isIdentifier = true)
    (supply : NameSupply) :
    (refresh names).Ensures supply fun renames _ => ProperRenames renames := by
  induction names generalizing supply with
  | nil => exact .pure (by simp [ProperRenames])
  | cons name names induction =>
      simp only [List.forall_mem_cons] at identifiers
      refine .bind (supply.fresh_proper identifiers.1) ?_
      intro target later _ identifier
      refine .bind (induction identifiers.2 later) ?_
      intro renames last _ proper
      exact .pure (List.forall_mem_cons.mpr ⟨identifier, proper⟩)

theorem Pattern.enter_proper {pattern : Pattern} {replacements : Replacements}
    (formed : pattern.isWellFormed = true) (proper : replacements.Proper)
    (supply : NameSupply) :
    (pattern.enter replacements).Ensures supply fun entered _ =>
      entered.1.isWellFormed = true ∧ entered.2.Proper := by
  have identifiers := Pattern.isIdentifier_of_mem_occurrences formed
  refine .bind (Naming.refresh_proper ?_ supply) ?_
  · intro name member
    exact identifiers name (Pattern.mem_vars.mp (List.mem_filter.mp member).1)
  · intro renames later _ renamesProper
    refine .pure ⟨?_, ?_⟩
    · exact Pattern.isWellFormed_rename formed fun name member =>
        renamesProper.renamed (identifiers name member)
    · intro replacement member
      rcases List.mem_append.mp member with renamed | kept
      · exact renamesProper.proper replacement renamed
      · exact proper replacement (List.mem_filter.mp kept).1

namespace Expr

mutual

theorem substitute_proper {expr : Expr} {replacements : Replacements}
    (exprProper : expr.Proper) (proper : replacements.Proper)
    (supply : NameSupply) : (expr.substitute replacements).Ensures supply
    fun result _ => result.Proper := by
  cases expr with
  | literal value => exact .pure exprProper
  | var name =>
      refine .pure ?_
      cases found : replacements.lookup name with
      | none => exact exprProper
      | some expr => exact proper.of_lookup found
  | tuple items =>
      obtain ⟨long, itemsProper⟩ := proper_tuple.mp exprProper
      refine .bind (substituteList_proper itemsProper proper supply) ?_
      intro results later _ found
      exact .pure (proper_tuple.mpr ⟨found.1 ▸ long, found.2⟩)
  | list items =>
      refine .bind
        (substituteList_proper (proper_list.mp exprProper) proper supply) ?_
      intro results later _ found
      exact .pure (proper_list.mpr found.2)
  | apply function argument =>
      obtain ⟨functionProper, argumentProper⟩ := proper_apply.mp exprProper
      have functionRun : (function.substitute replacements).Ensures supply
          fun result _ => result.ProperFunction := by
        rcases functionProper.proper_or_var with other | ⟨name, rfl, qualified⟩
        · exact (substitute_proper other proper supply).mono fun _ _ _ found =>
            found.function
        · refine .pure ?_
          cases found : replacements.lookup name with
          | none => exact qualified
          | some expr => exact (proper.of_lookup found).function
      refine .bind functionRun ?_
      intro newFunction later _ functionFound
      refine .bind (substitute_proper argumentProper proper later) ?_
      intro newArgument last _ argumentFound
      exact .pure (proper_apply.mpr ⟨functionFound, argumentFound⟩)
  | lambda param body =>
      obtain ⟨formed, bodyProper⟩ := proper_lambda.mp exprProper
      refine .bind (Pattern.enter_proper formed proper supply) ?_
      intro entered later _ enteredProper
      refine .bind (substitute_proper bodyProper enteredProper.2 later) ?_
      intro newBody last _ found
      exact .pure (proper_lambda.mpr ⟨enteredProper.1, found⟩)
  | andAlso left right | orElse left right | binary op left right =>
      simp only [proper_andAlso, proper_orElse, proper_binary] at exprProper
      refine .bind (substitute_proper exprProper.1 proper supply) ?_
      intro newLeft later _ leftProper
      refine .bind (substitute_proper exprProper.2 proper later) ?_
      intro newRight last _ rightProper
      refine .pure ?_
      simp only [proper_andAlso, proper_orElse, proper_binary]
      exact ⟨leftProper, rightProper⟩
  | collect query =>
      refine .bind
        (substituteQuery_proper (proper_collect.mp exprProper) proper supply) ?_
      intro newQuery later _ found
      exact .pure (proper_collect.mpr found)
  | existence query =>
      refine .bind (substituteQuery_proper (proper_existence.mp exprProper)
        proper supply) ?_
      intro newQuery later _ found
      exact .pure (proper_existence.mpr found)

theorem substituteList_proper {items : List Expr} {replacements : Replacements}
    (itemsProper : ∀ item ∈ items, item.Proper) (proper : replacements.Proper)
    (supply : NameSupply) :
    (substituteList replacements items).Ensures supply fun results _ =>
      items.length = results.length ∧ ∀ result ∈ results, result.Proper := by
  cases items with
  | nil => exact .pure ⟨rfl, by simp⟩
  | cons item items =>
      simp only [List.forall_mem_cons] at itemsProper
      refine .bind (substitute_proper itemsProper.1 proper supply) ?_
      intro first later _ firstFound
      refine .bind (substituteList_proper itemsProper.2 proper later) ?_
      intro rest last _ restFound
      exact .pure ⟨congrArg (· + 1) restFound.1,
        List.forall_mem_cons.mpr ⟨firstFound, restFound.2⟩⟩

theorem substituteQuery_proper {query : Query} {replacements : Replacements}
    (queryProper : query.Proper) (proper : replacements.Proper)
    (supply : NameSupply) : (substituteQuery replacements query).Ensures supply
    fun result _ => result.Proper := by
  obtain ⟨scans, steps⟩ := query
  obtain ⟨nonempty, scansProper, stepsProper⟩ := queryProper
  refine .bind (substituteScans_proper scansProper proper supply) ?_
  rintro ⟨newScans, inner⟩ later _ ⟨length, scansFound, innerProper⟩
  refine .bind (substituteSteps_proper stepsProper innerProper later) ?_
  intro newSteps last _ stepsFound
  refine .pure ⟨?_, scansFound, stepsFound⟩
  rintro rfl
  exact nonempty (List.eq_nil_of_length_eq_zero length)

theorem substituteScans_proper {scans : List Scan} {replacements : Replacements}
    (scansProper : ∀ scan ∈ scans, scan.Proper) (proper : replacements.Proper)
    (supply : NameSupply) :
    (substituteScans replacements scans).Ensures supply fun result _ =>
      scans.length = result.1.length ∧ (∀ scan ∈ result.1, scan.Proper) ∧
      result.2.Proper := by
  cases scans with
  | nil => exact .pure ⟨rfl, by simp, proper⟩
  | cons scan scans =>
      obtain ⟨pattern, source⟩ := scan
      simp only [List.forall_mem_cons] at scansProper
      refine .bind (substituteSource_proper scansProper.1.2 proper supply) ?_
      intro newSource later _ sourceFound
      refine .bind (Pattern.enter_proper scansProper.1.1 proper later) ?_
      rintro ⟨newPattern, inner⟩ next _ ⟨formed, innerProper⟩
      refine .bind (substituteScans_proper scansProper.2 innerProper next) ?_
      rintro ⟨rest, innermost⟩ last _ ⟨length, restFound, innermostProper⟩
      exact .pure ⟨congrArg (· + 1) length,
        List.forall_mem_cons.mpr ⟨⟨formed, sourceFound⟩, restFound⟩,
        innermostProper⟩

theorem substituteSource_proper {source : Option Expr}
    {replacements : Replacements} (sourceProper : ∀ expr ∈ source, expr.Proper)
    (proper : replacements.Proper) (supply : NameSupply) :
    (substituteSource replacements source).Ensures supply fun result _ =>
      ∀ expr ∈ result, expr.Proper := by
  cases source with
  | none => exact .pure (by simp)
  | some source =>
      refine .bind
        (substitute_proper (sourceProper source rfl) proper supply) ?_
      intro newSource later _ found
      exact .pure (by simpa using found)

theorem substituteSteps_proper {steps : List Step} {replacements : Replacements}
    (stepsProper : ∀ step ∈ steps, step.Proper) (proper : replacements.Proper)
    (supply : NameSupply) :
    (substituteSteps replacements steps).Ensures supply fun results _ =>
      ∀ result ∈ results, result.Proper := by
  match steps with
  | [] => exact .pure (by simp)
  | .filter expr :: steps | .yield expr :: steps =>
      simp only [List.forall_mem_cons] at stepsProper
      refine .bind (substitute_proper stepsProper.1 proper supply) ?_
      intro first later _ firstFound
      refine .bind (substituteSteps_proper stepsProper.2 proper later) ?_
      intro rest last _ restFound
      exact .pure (List.forall_mem_cons.mpr ⟨firstFound, restFound⟩)

end

end Expr

/-! ## Clauses of a condition -/

namespace Query

variable {query : Query}

theorem proper_filterClauses {clauses : List Expr} (proper : query.Proper)
    (apart : query.filterClauses? = some clauses) :
    ∀ clause ∈ clauses, clause.Proper := by
  intro clause member
  obtain ⟨_, scansProper, stepsProper⟩ := proper
  rcases mem_filterClauses? apart clause member with
    ⟨pattern, source, row, inScans, rebuilt, rfl⟩ | inSteps
  · obtain ⟨formed, sourceProper⟩ := scansProper _ inScans
    exact Expr.proper_binary.mpr
      ⟨Pattern.proper_of_toExpr? formed rebuilt, sourceProper source rfl⟩
  · exact stepsProper _ inSteps

theorem isIdentifier_of_mem_scanVars (proper : query.Proper) :
    ∀ name ∈ query.scanVars, name.isIdentifier = true := by
  intro name member
  obtain ⟨scan, inScans, occurs⟩ :=
    List.mem_flatMap.mp (List.mem_eraseDups.mp member)
  exact Pattern.isIdentifier_of_mem_occurrences (proper.2.1 scan inScans).1
    name occurs

end Query

namespace Scope

variable {scope : Scope} {program : Program}

theorem nameApart_proper {names taken : List Name}
    (identifiers : ∀ name ∈ names, name.isIdentifier = true)
    (supply : NameSupply) :
    (scope.nameApart program names taken).Ensures supply fun named _ =>
      ProperRenames named.1 := by
  induction names generalizing taken supply with
  | nil => exact .pure (by simp [ProperRenames])
  | cons name names induction =>
      simp only [List.forall_mem_cons] at identifiers
      rw [nameApart]
      split
      · refine .bind (supply.fresh_proper identifiers.1) ?_
        intro target later _ identifier
        refine .bind (induction identifiers.2 later) ?_
        intro named last _ proper
        exact .pure (List.forall_mem_cons.mpr ⟨identifier, proper⟩)
      · exact induction identifiers.2 supply

theorem renameClauses_proper {renames : List (Name × Name)}
    {clauses : List Expr} (identifiers : ProperRenames renames)
    (proper : ∀ clause ∈ clauses, clause.Proper) (supply : NameSupply) :
    (renameClauses renames clauses).Ensures supply fun renamed _ =>
      ∀ clause ∈ renamed, clause.Proper := by
  refine (@renameClauses_ensures (fun _ result _ => result.Proper)
    (fun _ _ _ _ _ found => found) renames clauses supply ?_).mono ?_
  · intro clause member later _
    exact Expr.substitute_proper (proper clause member) identifiers.proper later
  · intro renamed later _ found
    exact forall_mem_of_forall₂ found

theorem unwrap_proper {query : Query} (proper : query.Proper)
    (taken : List Name) (supply : NameSupply) :
    (scope.unwrap program query taken).Ensures supply fun unwrapped _ =>
      ∀ clauses ∈ unwrapped.1, ∀ clause ∈ clauses, clause.Proper := by
  refine unwrap_ensures
    (nameApart_proper (Query.isIdentifier_of_mem_scanVars proper) supply) ?_
  intro clauses apart named later _ identifiers
  exact renameClauses_proper identifiers
    (Query.proper_filterClauses proper apart) later

theorem flatten_proper {expr : Expr} (proper : expr.Proper)
    (supply : NameSupply) :
    (scope.flatten program expr).Ensures supply fun clauses _ =>
      ∀ clause ∈ clauses, clause.Proper :=
  @flatten_ensures scope program (fun expr _ => expr.Proper)
    (fun _ _ _ _ given => given) (fun _ _ => Expr.proper_conjuncts)
    (fun _ taken supply given =>
      unwrap_proper (Expr.proper_existence.mp given) taken supply)
    expr supply proper

end Scope

end RecursiveQuery
