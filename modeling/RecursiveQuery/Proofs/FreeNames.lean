import RecursiveQuery.Proofs.Names
import RecursiveQuery.Proofs.NamingRuns

/-!
# Free names of substitutions

The free names of a substituted expression are those of the replacements of its
free names.  A binder captures none of them that was reserved, because it is
renamed to a name that was not.
-/

namespace RecursiveQuery

variable {replacements : Replacements} {name : Name}
  {renames : List (Name × Name)}

namespace Pattern

mutual

theorem occurrences_rename (change : Name → Name) (pattern : Pattern) :
    (pattern.rename change).occurrences = pattern.occurrences.map change := by
  cases pattern with
  | wildcard => rfl
  | var name => rfl
  | literal value => rfl
  | tuple items => exact occurrencesList_rename change items

theorem occurrencesList_rename (change : Name → Name) (items : List Pattern) :
    occurrencesList (renameList change items) =
      (occurrencesList items).map change := by
  cases items with
  | nil => rfl
  | cons item items =>
      have first := occurrences_rename change item
      have rest := occurrencesList_rename change items
      simp only [renameList, occurrencesList, List.map_append, first, rest]

end

end Pattern

namespace Replacements

theorem lookup_outside {bound : List Name} :
    (replacements.outside bound).lookup name =
      if name ∈ bound then none else replacements.lookup name := by
  induction replacements with
  | nil => simp [outside]
  | cons entry entries induction =>
      obtain ⟨key, expr⟩ := entry
      by_cases inside : key ∈ bound
      · have dropped : outside bound ((key, expr) :: entries) =
          outside bound entries := by
          simp [outside, inside]
        rw [dropped, induction, List.lookup_cons]
        by_cases equal : name = key
        · rw [if_pos (equal ▸ inside), if_pos (equal ▸ inside)]
        · rw [beq_eq_false_iff_ne.mpr equal]
      · have kept : outside bound ((key, expr) :: entries) =
            (key, expr) :: outside bound entries := by
          simp [outside, inside]
        rw [kept, List.lookup_cons, List.lookup_cons, induction]
        by_cases equal : name = key
        · simp [equal, inside]
        · rw [beq_eq_false_iff_ne.mpr equal]

theorem lookup_ofRenames :
    (ofRenames renames).lookup name = (renames.lookup name).map Expr.var := by
  induction renames with
  | nil => rfl
  | cons rename renames induction =>
      have first : ofRenames (rename :: renames) =
        (rename.1, .var rename.2) :: ofRenames renames := rfl
      rw [first, List.lookup_cons, List.lookup_cons, induction]
      cases name == rename.1 <;> rfl

/-- A name is free in what replaces another name. -/
def Reaches (replacements : Replacements) (old name : Name) : Prop :=
  name ∈ ((replacements.lookup old).getD (.var old)).freeVars

/-- The free names that replacements make of some free names: no others, and at
least those that are reserved. -/
structure Carries (replacements : Replacements)
    (reserved free result : List Name) : Prop where
  only : ∀ name ∈ result, ∃ old ∈ free, replacements.Reaches old name
  all : ∀ name ∈ reserved, ∀ old ∈ free, replacements.Reaches old name →
    name ∈ result

namespace Carries

variable {replacements : Replacements}
  {reserved free result more rest : List Name}

theorem nil : replacements.Carries reserved [] [] :=
  ⟨nofun, nofun⟩

theorem append (first : replacements.Carries reserved free result)
    (second : replacements.Carries reserved more rest) :
    replacements.Carries reserved (free ++ more) (result ++ rest) := by
  constructor
  · intro name member
    rcases List.mem_append.mp member with inFirst | inSecond
    · obtain ⟨old, isFree, reaches⟩ := first.only name inFirst
      exact ⟨old, List.mem_append_left _ isFree, reaches⟩
    · obtain ⟨old, isFree, reaches⟩ := second.only name inSecond
      exact ⟨old, List.mem_append_right _ isFree, reaches⟩
  · intro name isReserved old member reaches
    rcases List.mem_append.mp member with inFirst | inSecond
    · exact List.mem_append_left _
        (first.all name isReserved old inFirst reaches)
    · exact List.mem_append_right _
        (second.all name isReserved old inSecond reaches)

theorem mono {fewer : List Name} (subset : fewer ⊆ reserved)
    (carries : replacements.Carries reserved free result) :
    replacements.Carries fewer free result :=
  ⟨carries.only, fun name isReserved => carries.all name (subset isReserved)⟩

end Carries

end Replacements

namespace NameMap

variable {α : Type} {map : NameMap α} {name : Name}

theorem lookup_eq_none (absent : name ∉ map.keys) : map.lookup name = none := by
  rw [List.lookup_eq_none_iff]
  intro entry member
  have different : name ≠ entry.1 := by
    rintro rfl
    exact absent (List.mem_map_of_mem member)
  simpa using different

theorem mem_of_lookup {value : α} (found : map.lookup name = some value) :
    (name, value) ∈ map := by
  obtain ⟨before, after, rfl, _⟩ := List.lookup_eq_some_iff.mp found
  simp

theorem exists_lookup_of_mem (member : name ∈ map.keys) :
    ∃ value, map.lookup name = some value := by
  cases found : map.lookup name with
  | some value => exact ⟨value, rfl⟩
  | none =>
      obtain ⟨entry, inMap, rfl⟩ := List.mem_map.mp member
      have different := List.lookup_eq_none_iff.mp found entry inMap
      simp at different

end NameMap

theorem Name.renamed_of_not_mem (absent : name ∉ NameMap.keys renames) :
    Name.renamed renames name = name := by
  rw [Name.renamed, NameMap.lookup_eq_none absent]
  rfl

theorem Replacements.reaches_ofRenames {old : Name} :
    (ofRenames renames).Reaches old name ↔ name = Name.renamed renames old := by
  rw [Reaches, lookup_ofRenames, Name.renamed]
  cases renames.lookup old <;> exact List.mem_singleton

/-- Entering a binder keeps what becomes of the free names outside it. -/
theorem Pattern.enter_carries (pattern : Pattern) (replacements : Replacements)
    (supply : NameSupply) :
    (pattern.enter replacements).Ensures supply fun entered later =>
      ∀ free result, entered.2.Carries later.used free result →
        replacements.Carries supply.used (Name.outside pattern.occurrences free)
          (Name.outside entered.1.occurrences result) := by
  refine .bind (Naming.refresh_spec _ supply).keeps ?_
  rintro renames later _ ⟨grown, keys, targets⟩
  refine .pure ?_
  intro free result carries
  -- What an inner replacement reaches: the new name of a bound one, or what it
  -- reached outside.
  have inside {old name : Name} (bound : old ∈ pattern.occurrences)
      (reaches : Replacements.Reaches
        (.ofRenames renames ++ replacements.outside pattern.vars)
        old name) : name = Name.renamed renames old := by
    rw [Replacements.Reaches, List.lookup_append, Replacements.lookup_ofRenames,
      Replacements.lookup_outside, if_pos (mem_vars.mpr bound)] at reaches
    rw [Name.renamed]
    cases found : renames.lookup old <;>
      simpa [found, Expr.freeVars] using reaches
  have outside {old name : Name} (unbound : old ∉ pattern.occurrences) :
      Replacements.Reaches
        (.ofRenames renames ++ replacements.outside pattern.vars) old name ↔
        replacements.Reaches old name := by
    have absent : old ∉ NameMap.keys renames := by
      rw [NameMap.keys, keys]
      intro member
      exact unbound (mem_vars.mp (List.mem_filter.mp member).1)
    rw [Replacements.Reaches, Replacements.Reaches, List.lookup_append,
      Replacements.lookup_ofRenames, NameMap.lookup_eq_none absent,
      Replacements.lookup_outside, if_neg (mt mem_vars.mp unbound)]
    rfl
  constructor
  · intro name member
    rw [Name.mem_outside, occurrences_rename] at member
    obtain ⟨old, isFree, reaches⟩ := carries.only name member.1
    by_cases bound : old ∈ pattern.occurrences
    · exact absurd (List.mem_map.mpr ⟨old, bound, (inside bound reaches).symm⟩)
        member.2
    · exact ⟨old, Name.mem_outside.mpr ⟨isFree, bound⟩,
        (outside bound).mp reaches⟩
  · intro name isReserved old member reaches
    obtain ⟨isFree, unbound⟩ := Name.mem_outside.mp member
    refine Name.mem_outside.mpr
      ⟨carries.all name (grown isReserved) old isFree
        ((outside unbound).mpr reaches), ?_⟩
    rw [occurrences_rename]
    intro captured
    obtain ⟨bound, occurs, rfl⟩ := List.mem_map.mp captured
    cases found : renames.lookup bound with
    | some target =>
        rw [Name.renamed, found] at isReserved
        exact (targets _ (NameMap.mem_of_lookup found)).1 isReserved
    | none =>
        rw [Name.renamed, found, Option.getD_none,
          Replacements.Reaches] at reaches
        cases replaced : replacements.lookup old with
        | none =>
            rw [replaced, Option.getD_none, Expr.freeVars,
              List.mem_singleton] at reaches
            exact unbound (reaches ▸ occurs)
        | some expr =>
            rw [replaced, Option.getD_some] at reaches
            have kept : (old, expr) ∈ replacements.outside pattern.vars := by
              apply NameMap.mem_of_lookup
              rw [Replacements.lookup_outside, if_neg (mt mem_vars.mp unbound),
                replaced]
            have renamed : bound ∈ NameMap.keys renames := by
              rw [NameMap.keys, keys, List.mem_filter, List.contains_iff_mem]
              exact ⟨mem_vars.mpr occurs,
                List.mem_flatMap.mpr ⟨_, kept, reaches⟩⟩
            obtain ⟨target, present⟩ := NameMap.exists_lookup_of_mem renamed
            rw [found] at present
            cases present

namespace Expr

variable {name : Name}

/-- The free names of the source of a scan, if there is one. -/
def freeVarsSource : Option Expr → List Name
  | none => []
  | some source => source.freeVars

theorem freeVarsScans_cons (pattern : Pattern) (source : Option Expr)
    (scans : List Scan) (body : List Name) :
    freeVarsScans (⟨pattern, source⟩ :: scans) body =
      freeVarsSource source ++
        Name.outside pattern.occurrences (freeVarsScans scans body) := by
  cases source <;> rfl

theorem mem_freeVarsSteps {steps : List Step} :
    name ∈ freeVarsSteps steps ↔ ∃ step ∈ steps, name ∈ step.expr.freeVars := by
  induction steps with
  | nil => simp [freeVarsSteps]
  | cons step steps induction =>
      have split : freeVarsSteps (step :: steps) =
        step.expr.freeVars ++ freeVarsSteps steps := by
        cases step <;> rfl
      simp [split, induction]

mutual

theorem substitute_carries (expr : Expr) (replacements : Replacements)
    (supply : NameSupply) :
    (expr.substitute replacements).Ensures supply fun result _ =>
      replacements.Carries supply.used expr.freeVars result.freeVars := by
  match expr with
  | literal value => exact .pure .nil
  | var name =>
      refine .pure ⟨?_, ?_⟩
      · intro reached member
        exact ⟨name, List.mem_singleton.mpr rfl, member⟩
      · intro reached _ old member reaches
        rwa [List.mem_singleton.mp member] at reaches
  | tuple items | list items =>
      refine .bind (substituteList_carries items replacements supply) ?_
      intro items later _ carries
      exact .pure carries
  | apply left right | andAlso left right | orElse left right
  | binary _ left right =>
      refine .bind (substitute_carries left replacements supply) ?_
      intro newLeft later grown leftCarries
      refine .bind (substitute_carries right replacements later) ?_
      intro newRight last _ rightCarries
      exact .pure (leftCarries.append (rightCarries.mono grown))
  | lambda param body =>
      refine .bind (param.enter_carries replacements supply) ?_
      rintro ⟨newParam, inner⟩ later _ outward
      refine .bind (substitute_carries body inner later) ?_
      intro newBody last _ carries
      exact .pure (outward _ _ carries)
  | collect query | existence query =>
      refine .bind (substituteQuery_carries query replacements supply) ?_
      intro query later _ carries
      exact .pure carries

theorem substituteList_carries (items : List Expr) (replacements : Replacements)
    (supply : NameSupply) :
    (substituteList replacements items).Ensures supply fun result _ =>
      replacements.Carries supply.used (freeVarsList items)
        (freeVarsList result) := by
  match items with
  | [] => exact .pure .nil
  | item :: items =>
      refine .bind (substitute_carries item replacements supply) ?_
      intro newItem later grown first
      refine .bind (substituteList_carries items replacements later) ?_
      intro newItems last _ rest
      exact .pure (first.append (rest.mono grown))

theorem substituteQuery_carries (query : Query) (replacements : Replacements)
    (supply : NameSupply) :
    (substituteQuery replacements query).Ensures supply fun result _ =>
      replacements.Carries supply.used (freeVarsQuery query)
        (freeVarsQuery result) := by
  match query with
  | ⟨scans, steps⟩ =>
      refine .bind (substituteScans_carries scans replacements supply) ?_
      rintro ⟨newScans, inner⟩ later _ outward
      refine .bind (substituteSteps_carries steps inner later) ?_
      intro newSteps last _ carries
      exact .pure (outward _ _ carries)

/-- Scans bind in front of a body: what becomes of its free names inside decides
what becomes of those outside. -/
theorem substituteScans_carries (scans : List Scan)
    (replacements : Replacements) (supply : NameSupply) :
    (substituteScans replacements scans).Ensures supply fun result later =>
      ∀ body newBody, result.2.Carries later.used body newBody →
        replacements.Carries supply.used (freeVarsScans scans body)
          (freeVarsScans result.1 newBody) := by
  match scans with
  | [] => exact .pure fun _ _ carries => carries
  | ⟨pattern, source⟩ :: scans =>
      refine .bind (substituteSource_carries source replacements supply) ?_
      intro newSource next grown sourceCarries
      refine .bind (pattern.enter_carries replacements next) ?_
      rintro ⟨newPattern, inner⟩ later _ outward
      refine .bind (substituteScans_carries scans inner later) ?_
      rintro ⟨newScans, innermost⟩ last _ further
      refine .pure fun body newBody carries => ?_
      rw [freeVarsScans_cons, freeVarsScans_cons]
      exact sourceCarries.append
        ((outward _ _ (further body newBody carries)).mono grown)

theorem substituteSource_carries (source : Option Expr)
    (replacements : Replacements) (supply : NameSupply) :
    (substituteSource replacements source).Ensures supply fun result _ =>
      replacements.Carries supply.used (freeVarsSource source)
        (freeVarsSource result) := by
  match source with
  | none => exact .pure .nil
  | some source =>
      refine .bind (substitute_carries source replacements supply) ?_
      intro newSource later _ carries
      exact .pure carries

theorem substituteSteps_carries (steps : List Step)
    (replacements : Replacements) (supply : NameSupply) :
    (substituteSteps replacements steps).Ensures supply fun result _ =>
      replacements.Carries supply.used (freeVarsSteps steps)
        (freeVarsSteps result) := by
  match steps with
  | [] => exact .pure .nil
  | .filter expr :: steps | .yield expr :: steps =>
      refine .bind (substitute_carries expr replacements supply) ?_
      intro newExpr later grown first
      refine .bind (substituteSteps_carries steps replacements later) ?_
      intro newSteps last _ rest
      exact .pure (first.append (rest.mono grown))

end

/-! ## Reserved names -/

theorem append_subset_append {first second left right : List Name}
    (firstSubset : first ⊆ left) (secondSubset : second ⊆ right) :
    first ++ second ⊆ left ++ right :=
  List.append_subset.mpr ⟨List.subset_append_of_subset_left _ firstSubset,
    List.subset_append_of_subset_right _ secondSubset⟩

theorem mem_of_mem_outside {bound names : List Name}
    (member : name ∈ Name.outside bound names) : name ∈ names :=
  (Name.mem_outside.mp member).1

mutual

theorem freeVars_subset_allNames (expr : Expr) :
    expr.freeVars ⊆ expr.allNames := by
  match expr with
  | literal value | var name => exact List.Subset.refl _
  | tuple items | list items => exact freeVarsList_subset_allNames items
  | apply left right | andAlso left right | orElse left right
  | binary _ left right =>
      exact append_subset_append (freeVars_subset_allNames left)
        (freeVars_subset_allNames right)
  | lambda param body =>
      intro name member
      exact List.mem_append_right _
        (freeVars_subset_allNames body (mem_of_mem_outside member))
  | collect query | existence query => exact freeVarsQuery_subset_allNames query

theorem freeVarsList_subset_allNames (items : List Expr) :
    freeVarsList items ⊆ allNamesList items := by
  match items with
  | [] => exact List.Subset.refl _
  | item :: items =>
      exact append_subset_append (freeVars_subset_allNames item)
        (freeVarsList_subset_allNames items)

theorem freeVarsQuery_subset_allNames (query : Query) :
    freeVarsQuery query ⊆ allNamesQuery query := by
  match query with
  | ⟨scans, steps⟩ =>
      intro name member
      rcases mem_allNamesScans_or_body scans _ member with inScans | inSteps
      · exact List.mem_append_left _ inScans
      · exact List.mem_append_right _
          (freeVarsSteps_subset_allNames steps inSteps)

theorem mem_allNamesScans_or_body (scans : List Scan) (body : List Name)
    {name : Name} (member : name ∈ freeVarsScans scans body) :
    name ∈ allNamesScans scans ∨ name ∈ body := by
  match scans with
  | [] => exact .inr member
  | ⟨pattern, none⟩ :: scans =>
      rcases mem_allNamesScans_or_body scans body
        (mem_of_mem_outside member) with inScans | inBody
      · exact .inl (List.mem_append_right _ inScans)
      · exact .inr inBody
  | ⟨pattern, some source⟩ :: scans =>
      rcases List.mem_append.mp member with inSource | later
      · have occurs := freeVars_subset_allNames source inSource
        exact .inl (List.mem_append_left _ (List.mem_append_right _ occurs))
      · rcases mem_allNamesScans_or_body scans body
          (mem_of_mem_outside later) with inScans | inBody
        · exact .inl (List.mem_append_right _ inScans)
        · exact .inr inBody

theorem freeVarsSteps_subset_allNames (steps : List Step) :
    freeVarsSteps steps ⊆ allNamesSteps steps := by
  match steps with
  | [] => exact List.Subset.refl _
  | .filter expr :: steps | .yield expr :: steps =>
      exact append_subset_append (freeVars_subset_allNames expr)
        (freeVarsSteps_subset_allNames steps)

end

end Expr

/-- All names of the replacements are reserved. -/
def Replacements.Reserved (replacements : Replacements) (supply : NameSupply) :
    Prop :=
  ∀ replacement ∈ replacements, replacement.2.allNames ⊆ supply.used

theorem Replacements.Reserved.mono {supply later : NameSupply}
    (reserved : replacements.Reserved supply)
    (grown : supply.used ⊆ later.used) :
    replacements.Reserved later := fun replacement member =>
  List.Subset.trans (reserved replacement member) grown

theorem Pattern.enter_reserved {pattern : Pattern} {supply : NameSupply}
    (patternReserved : pattern.occurrences ⊆ supply.used)
    (reserved : replacements.Reserved supply) :
    (pattern.enter replacements).Ensures supply fun entered later =>
      entered.1.occurrences ⊆ later.used ∧ entered.2.Reserved later := by
  refine .bind (Naming.refresh_spec _ supply).keeps ?_
  rintro renames later _ ⟨grown, keys, targets⟩
  refine .pure ⟨?_, ?_⟩
  · rw [occurrences_rename]
    intro name member
    obtain ⟨old, occurs, rfl⟩ := List.mem_map.mp member
    rw [Name.renamed]
    cases found : renames.lookup old with
    | none => exact grown (patternReserved occurs)
    | some target => exact (targets _ (NameMap.mem_of_lookup found)).2
  · intro replacement member
    rcases List.mem_append.mp member with renamed | kept
    · obtain ⟨rename, inRenames, rfl⟩ := List.mem_map.mp renamed
      intro name isTarget
      rw [List.mem_singleton.mp isTarget]
      exact (targets rename inRenames).2
    · exact reserved.mono grown replacement (List.mem_filter.mp kept).1

namespace Expr

/-- All names of the source of a scan, if there is one. -/
def allNamesSource : Option Expr → List Name
  | none => []
  | some source => source.allNames

theorem allNamesScans_cons (pattern : Pattern) (source : Option Expr)
    (scans : List Scan) : allNamesScans (⟨pattern, source⟩ :: scans) =
      pattern.occurrences ++ allNamesSource source ++ allNamesScans scans := by
  cases source with
  | none => exact (congrArg (· ++ _) (List.append_nil _)).symm
  | some source => rfl

mutual

theorem substitute_reserved {expr : Expr} {replacements : Replacements}
    {supply : NameSupply} (exprReserved : expr.allNames ⊆ supply.used)
    (reserved : replacements.Reserved supply) :
    (expr.substitute replacements).Ensures supply fun result later =>
      result.allNames ⊆ later.used := by
  match expr with
  | literal value => exact .pure exprReserved
  | var name =>
      refine .pure ?_
      cases found : replacements.lookup name with
      | none => exact exprReserved
      | some replacement => exact reserved _ (NameMap.mem_of_lookup found)
  | tuple items | list items =>
      refine .bind (substituteList_reserved exprReserved reserved) ?_
      intro items later _ found
      exact .pure found
  | apply left right | andAlso left right | orElse left right
  | binary _ left right =>
      obtain ⟨leftReserved, rightReserved⟩ := List.append_subset.mp exprReserved
      refine .bind (substitute_reserved leftReserved reserved) ?_
      intro newLeft later grown leftFound
      refine .bind (substitute_reserved (List.Subset.trans rightReserved grown)
        (reserved.mono grown)) ?_
      intro newRight last grownLast rightFound
      exact .pure (List.append_subset.mpr
        ⟨List.Subset.trans leftFound grownLast, rightFound⟩)
  | lambda param body =>
      obtain ⟨paramReserved, bodyReserved⟩ := List.append_subset.mp exprReserved
      refine .bind (Pattern.enter_reserved paramReserved reserved) ?_
      rintro ⟨newParam, inner⟩ later grown ⟨paramFound, innerReserved⟩
      refine .bind (substitute_reserved (List.Subset.trans bodyReserved grown)
        innerReserved) ?_
      intro newBody last grownLast bodyFound
      exact .pure (List.append_subset.mpr
        ⟨List.Subset.trans paramFound grownLast, bodyFound⟩)
  | collect query | existence query =>
      refine .bind (substituteQuery_reserved exprReserved reserved) ?_
      intro query later _ found
      exact .pure found

theorem substituteList_reserved {items : List Expr}
    {replacements : Replacements} {supply : NameSupply}
    (itemsReserved : allNamesList items ⊆ supply.used)
    (reserved : replacements.Reserved supply) :
    (substituteList replacements items).Ensures supply fun results later =>
      allNamesList results ⊆ later.used := by
  match items with
  | [] => exact .pure itemsReserved
  | item :: items =>
      obtain ⟨itemReserved, restReserved⟩ := List.append_subset.mp itemsReserved
      refine .bind (substitute_reserved itemReserved reserved) ?_
      intro newItem later grown itemFound
      refine .bind
        (substituteList_reserved (List.Subset.trans restReserved grown)
        (reserved.mono grown)) ?_
      intro newItems last grownLast itemsFound
      exact .pure (List.append_subset.mpr
        ⟨List.Subset.trans itemFound grownLast, itemsFound⟩)

theorem substituteQuery_reserved {query : Query} {replacements : Replacements}
    {supply : NameSupply} (queryReserved : allNamesQuery query ⊆ supply.used)
    (reserved : replacements.Reserved supply) :
    (substituteQuery replacements query).Ensures supply fun result later =>
      allNamesQuery result ⊆ later.used := by
  match query with
  | ⟨scans, steps⟩ =>
      obtain ⟨scansReserved, stepsReserved⟩ :=
        List.append_subset.mp queryReserved
      refine .bind (substituteScans_reserved scansReserved reserved) ?_
      rintro ⟨newScans, inner⟩ later grown ⟨scansFound, innerReserved⟩
      refine .bind
        (substituteSteps_reserved (List.Subset.trans stepsReserved grown)
        innerReserved) ?_
      intro newSteps last grownLast stepsFound
      exact .pure (List.append_subset.mpr
        ⟨List.Subset.trans scansFound grownLast, stepsFound⟩)

theorem substituteScans_reserved {scans : List Scan}
    {replacements : Replacements} {supply : NameSupply}
    (scansReserved : allNamesScans scans ⊆ supply.used)
    (reserved : replacements.Reserved supply) :
    (substituteScans replacements scans).Ensures supply fun result later =>
      allNamesScans result.1 ⊆ later.used ∧ result.2.Reserved later := by
  match scans with
  | [] => exact .pure ⟨scansReserved, reserved⟩
  | ⟨pattern, source⟩ :: scans =>
      rw [allNamesScans_cons, List.append_subset,
        List.append_subset] at scansReserved
      obtain ⟨⟨patternReserved, sourceReserved⟩, restReserved⟩ := scansReserved
      refine .bind (substituteSource_reserved sourceReserved reserved) ?_
      intro newSource next grown sourceFound
      refine .bind
        (Pattern.enter_reserved (List.Subset.trans patternReserved grown)
        (reserved.mono grown)) ?_
      rintro ⟨newPattern, inner⟩ later grownLater ⟨patternFound, innerReserved⟩
      refine .bind (substituteScans_reserved
        (List.Subset.trans restReserved (List.Subset.trans grown grownLater))
        innerReserved) ?_
      rintro ⟨newScans, innermost⟩ last grownLast
        ⟨scansFound, innermostReserved⟩
      refine .pure ⟨?_, innermostReserved⟩
      rw [allNamesScans_cons, List.append_subset, List.append_subset]
      exact ⟨⟨List.Subset.trans patternFound grownLast,
        List.Subset.trans sourceFound (List.Subset.trans grownLater grownLast)⟩,
        scansFound⟩

theorem substituteSource_reserved {source : Option Expr}
    {replacements : Replacements} {supply : NameSupply}
    (sourceReserved : allNamesSource source ⊆ supply.used)
    (reserved : replacements.Reserved supply) :
    (substituteSource replacements source).Ensures supply fun result later =>
      allNamesSource result ⊆ later.used := by
  match source with
  | none => exact .pure sourceReserved
  | some source =>
      refine .bind (substitute_reserved sourceReserved reserved) ?_
      intro newSource later _ found
      exact .pure found

theorem substituteSteps_reserved {steps : List Step}
    {replacements : Replacements} {supply : NameSupply}
    (stepsReserved : allNamesSteps steps ⊆ supply.used)
    (reserved : replacements.Reserved supply) :
    (substituteSteps replacements steps).Ensures supply fun results later =>
      allNamesSteps results ⊆ later.used := by
  match steps with
  | [] => exact .pure stepsReserved
  | .filter expr :: steps | .yield expr :: steps =>
      obtain ⟨exprReserved, restReserved⟩ := List.append_subset.mp stepsReserved
      refine .bind (substitute_reserved exprReserved reserved) ?_
      intro newExpr later grown exprFound
      refine .bind
        (substituteSteps_reserved (List.Subset.trans restReserved grown)
        (reserved.mono grown)) ?_
      intro newSteps last grownLast stepsFound
      exact .pure (List.append_subset.mpr
        ⟨List.Subset.trans exprFound grownLast, stepsFound⟩)

end

end Expr

end RecursiveQuery
