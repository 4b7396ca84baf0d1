import RecursiveQuery.Proofs.FreeNames

/-!
# Instances of expressions

An expression is an instance of another one if it stands for the same with its
free names replaced, where binders may have been renamed as long as nothing is
captured.  Substitution makes instances.
-/

namespace RecursiveQuery

namespace Pattern

/-- What names stand for inside a pattern whose variables have been renamed. -/
def entered (pattern : Pattern) (meant : Name → Expr) (change : Name → Name)
    (name : Name) : Expr :=
  if name ∈ pattern.occurrences then .var (change name) else meant name

/-- The new variables of a pattern are different ones, and none of them occurs
in what some names stand for. -/
structure Avoids (pattern : Pattern) (meant : Name → Expr)
    (change : Name → Name) (names : List Name) : Prop where
  distinct : ∀ name ∈ pattern.occurrences, ∀ other ∈ pattern.occurrences,
    change name = change other → name = other
  captureFree : ∀ name ∈ names, name ∉ pattern.occurrences →
    ∀ bound ∈ pattern.occurrences, change bound ∉ (meant name).freeVars

end Pattern

namespace Expr

mutual

/-- The second expression stands for the first one with its free names
replaced. -/
def Instance : (meant : Name → Expr) → Expr → Expr → Prop
  | _, literal value, result => result = literal value
  | meant, var name, result => result = meant name
  | meant, tuple items, result => ∃ results, result = tuple results ∧
      InstanceList meant items results
  | meant, list items, result => ∃ results, result = list results ∧
      InstanceList meant items results
  | meant, apply function argument, result => ∃ newFunction newArgument,
      result = apply newFunction newArgument ∧
      Instance meant function newFunction ∧ Instance meant argument newArgument
  | meant, lambda param body, result => ∃ change newBody,
      result = lambda (param.rename change) newBody ∧
      param.Avoids meant change body.freeVars ∧
        Instance (param.entered meant change) body newBody
  | meant, andAlso left right, result => ∃ newLeft newRight,
      result = andAlso newLeft newRight ∧ Instance meant left newLeft ∧
        Instance meant right newRight
  | meant, orElse left right, result => ∃ newLeft newRight,
      result = orElse newLeft newRight ∧ Instance meant left newLeft ∧
        Instance meant right newRight
  | meant, binary op left right, result => ∃ newLeft newRight,
      result = binary op newLeft newRight ∧ Instance meant left newLeft ∧
        Instance meant right newRight
  | meant, collect query, result => ∃ newQuery,
      result = collect newQuery ∧ InstanceQuery meant query newQuery
  | meant, existence query, result => ∃ newQuery,
      result = existence newQuery ∧ InstanceQuery meant query newQuery
termination_by structural _ expr => expr

def InstanceList : (meant : Name → Expr) → List Expr → List Expr → Prop
  | _, [], results => results = []
  | meant, item :: items, results => ∃ newItem newItems, results =
      newItem :: newItems ∧
      Instance meant item newItem ∧ InstanceList meant items newItems
termination_by structural _ items => items

def InstanceQuery : (meant : Name → Expr) → Query → Query → Prop
  | meant, ⟨scans, steps⟩, result => ∃ inner,
      InstanceScans meant (freeVarsSteps steps) scans result.scans inner ∧
        InstanceSteps inner steps result.steps
termination_by structural _ query => query

/-- Each scan changes what names stand for behind it, in the end to `inner`. -/
def InstanceScans :
    (meant : Name → Expr) → (body : List Name) → List Scan → List Scan →
    (inner : Name → Expr) → Prop
  | meant, _, [], results, inner => results = [] ∧ inner = meant
  | meant, body, ⟨pattern, source⟩ :: scans, results, inner =>
      ∃ change newSource newScans,
      results = ⟨pattern.rename change, newSource⟩ :: newScans ∧
        InstanceSource meant source newSource ∧
        pattern.Avoids meant change (freeVarsScans scans body) ∧
        InstanceScans (pattern.entered meant change) body scans newScans inner
termination_by structural _ _ scans => scans

def InstanceSource : (meant : Name → Expr) → Option Expr → Option Expr → Prop
  | _, none, result => result = none
  | meant, some source, result => ∃ newSource, result = some newSource ∧
      Instance meant source newSource
termination_by structural _ source => source

def InstanceSteps : (meant : Name → Expr) → List Step → List Step → Prop
  | _, [], results => results = []
  | meant, .filter condition :: steps, results => ∃ newCondition newSteps,
      results = .filter newCondition :: newSteps ∧
      Instance meant condition newCondition ∧ InstanceSteps meant steps newSteps
  | meant, .yield value :: steps, results => ∃ newValue newSteps,
      results = .yield newValue :: newSteps ∧ Instance meant value newValue ∧
        InstanceSteps meant steps newSteps
termination_by structural _ steps => steps

end

end Expr

namespace Pattern

mutual

theorem rename_id (pattern : Pattern) : pattern.rename id = pattern := by
  cases pattern with
  | wildcard => rfl
  | var name => rfl
  | literal value => rfl
  | tuple items => exact congrArg tuple (renameList_id items)

theorem renameList_id (items : List Pattern) : renameList id items = items := by
  cases items with
  | nil => rfl
  | cons item items => rw [renameList, rename_id item, renameList_id items]

end

theorem entered_var (pattern : Pattern) : pattern.entered .var id = .var := by
  funext name
  rw [entered, id, ite_self]

theorem avoids_var (pattern : Pattern) (names : List Name) :
    pattern.Avoids .var id names := by
  constructor
  · intro name _ other _ equal
    exact equal
  · intro name _ absent bound occurs member
    have equal : bound = name := List.mem_singleton.mp member
    subst equal
    exact absent occurs

end Pattern

namespace Expr

mutual

/-- An expression is an instance of itself. -/
theorem instance_refl (expr : Expr) : expr.Instance .var expr := by
  match expr with
  | literal value => exact rfl
  | var name => exact rfl
  | tuple items | list items => exact ⟨items, rfl, instanceList_refl items⟩
  | apply left right | andAlso left right | orElse left right
  | binary _ left right =>
      exact ⟨left, right, rfl, instance_refl left, instance_refl right⟩
  | lambda param body =>
      refine ⟨id, body, ?_, param.avoids_var _, ?_⟩
      · rw [param.rename_id]
      · rw [param.entered_var]
        exact instance_refl body
  | collect query
  | existence query => exact ⟨query, rfl, instanceQuery_refl query⟩

theorem instanceList_refl (items : List Expr) :
    InstanceList .var items items := by
  match items with
  | [] => exact rfl
  | item :: items =>
      exact ⟨item, items, rfl, instance_refl item, instanceList_refl items⟩

theorem instanceQuery_refl (query : Query) :
    InstanceQuery .var query query := by
  match query with
  | ⟨scans, steps⟩ =>
      exact ⟨.var, instanceScans_refl scans _, instanceSteps_refl steps⟩

theorem instanceScans_refl (scans : List Scan) (body : List Name) :
    InstanceScans .var body scans scans .var := by
  match scans with
  | [] => exact ⟨rfl, rfl⟩
  | ⟨pattern, source⟩ :: scans =>
      refine ⟨id, source, scans, ?_, instanceSource_refl source,
        pattern.avoids_var _, ?_⟩
      · rw [pattern.rename_id]
      · rw [pattern.entered_var]
        exact instanceScans_refl scans body

theorem instanceSource_refl (source : Option Expr) :
    InstanceSource .var source source := by
  match source with
  | none => exact rfl
  | some source => exact ⟨source, rfl, instance_refl source⟩

theorem instanceSteps_refl (steps : List Step) :
    InstanceSteps .var steps steps := by
  match steps with
  | [] => exact rfl
  | .filter expr :: steps | .yield expr :: steps =>
      exact ⟨expr, steps, rfl, instance_refl expr, instanceSteps_refl steps⟩

end

end Expr

/-- What replacements make of a name. -/
def Replacements.meant (replacements : Replacements) (name : Name) : Expr :=
  (replacements.lookup name).getD (.var name)

/-- Refreshed names are different ones. -/
theorem Naming.refresh_distinct (names : List Name) (supply : NameSupply) :
    (refresh names).Ensures supply fun renames _ =>
    (renames.map Prod.snd).Nodup := by
  induction names generalizing supply with
  | nil => exact .pure List.nodup_nil
  | cons name names induction =>
      refine .bind (NameSupply.fresh_spec name supply) ?_
      intro target later _ drawn
      refine .bind ((induction later).and (refresh_spec names later)) ?_
      intro renames last _ found
      refine .pure (List.nodup_cons.mpr ⟨?_, found.1⟩)
      intro again
      obtain ⟨rename, member, equal⟩ := List.mem_map.mp again
      have unused := (found.2.2 rename member).1
      rw [equal] at unused
      exact unused drawn.2

theorem Name.renamed_cases (renames : List (Name × Name)) (name : Name) :
    (name, renamed renames name) ∈ renames ∨
      renames.lookup name = none ∧ renamed renames name = name := by
  cases found : renames.lookup name with
  | some target =>
      left
      rw [renamed, found]
      exact NameMap.mem_of_lookup found
  | none =>
      right
      rw [renamed, found]
      exact ⟨rfl, rfl⟩

/-- Renaming to different new names keeps different names apart. -/
theorem Name.renamed_injective {renames : List (Name × Name)} {used : List Name}
    (targets : ∀ rename ∈ renames, rename.2 ∉ used)
    (distinct : (renames.map Prod.snd).Nodup) {name other : Name}
    (isUsed : name ∈ used) (otherUsed : other ∈ used)
    (equal : renamed renames name = renamed renames other) : name = other := by
  rcases renamed_cases renames name with member | ⟨-, same⟩
  · rcases renamed_cases renames other with otherMember | ⟨-, otherSame⟩
    · exact congrArg Prod.fst
        (List.inj_on_of_nodup_map distinct member otherMember equal)
    · rw [equal, otherSame] at member
      exact absurd otherUsed (targets _ member)
  · rcases renamed_cases renames other with otherMember | ⟨-, otherSame⟩
    · rw [← equal, same] at otherMember
      exact absurd isUsed (targets _ otherMember)
    · rw [same, otherSame] at equal
      exact equal

namespace Replacements

variable {replacements : Replacements} {name : Name}

theorem freeVars_of_lookup {expr : Expr}
    (found : replacements.lookup name = some expr) :
    expr.freeVars ⊆ replacements.freeVars := fun _ member =>
  List.mem_flatMap.mpr ⟨(name, expr), NameMap.mem_of_lookup found, member⟩

theorem meant_reserved {supply : NameSupply}
    (reserved : replacements.freeVars ⊆ supply.used)
    (nameReserved : name ∈ supply.used) :
    (replacements.meant name).freeVars ⊆ supply.used := by
  rw [meant]
  cases found : replacements.lookup name with
  | none => exact List.cons_subset.mpr ⟨nameReserved, List.nil_subset _⟩
  | some expr => exact List.Subset.trans (freeVars_of_lookup found) reserved

theorem meant_ofRenames (renames : List (Name × Name)) :
    (ofRenames renames).meant =
    fun name => .var (Name.renamed renames name) := by
  funext name
  rw [meant, lookup_ofRenames, Name.renamed]
  cases renames.lookup name <;> rfl

theorem freeVars_ofRenames {renames : List (Name × Name)} {used : List Name}
    (targets : ∀ rename ∈ renames, rename.2 ∈ used) :
    (ofRenames renames).freeVars ⊆ used := by
  intro name member
  obtain ⟨replacement, isReplacement, occurs⟩ := List.mem_flatMap.mp member
  obtain ⟨rename, isRename, rfl⟩ := List.mem_map.mp isReplacement
  rw [List.mem_singleton.mp occurs]
  exact targets rename isRename

end Replacements

namespace Pattern

variable {pattern : Pattern} {replacements : Replacements} {supply : NameSupply}
  {renames : List (Name × Name)}
variable {names : List Name}

/-- Fresh names for all variables that would capture keep the variables apart
and capture nothing. -/
theorem avoids_of_refresh (patternReserved : pattern.occurrences ⊆ supply.used)
    (namesReserved : names ⊆ supply.used)
    (reserved : replacements.freeVars ⊆ supply.used)
    (keys : renames.map Prod.fst =
      pattern.vars.filter (replacements.outside pattern.vars).freeVars.contains)
    (targets : ∀ rename ∈ renames, rename.2 ∉ supply.used)
    (distinct : (renames.map Prod.snd).Nodup) :
    pattern.Avoids replacements.meant (Name.renamed renames) names := by
  constructor
  · intro name occurs other otherOccurs equal
    exact Name.renamed_injective targets distinct (patternReserved occurs)
      (patternReserved otherOccurs) equal
  · intro name isName absent bound occurs member
    rcases Name.renamed_cases renames bound with renamed | ⟨unrenamed, same⟩
    · exact targets _ renamed
        (Replacements.meant_reserved reserved (namesReserved isName) member)
    · rw [same, Replacements.meant] at member
      cases found : replacements.lookup name with
      | none =>
          rw [found] at member
          have equal : bound = name := List.mem_singleton.mp member
          exact absent (equal ▸ occurs)
      | some expr =>
          -- A variable that occurs in what is replaced is among those that were
          -- renamed.
          rw [found] at member
          have inner : (replacements.outside pattern.vars).lookup name =
            some expr := by
            rw [Replacements.lookup_outside, if_neg (by simpa using absent),
              found]
          have captured := Replacements.freeVars_of_lookup inner member
          have isKey : bound ∈ NameMap.keys renames := by
            rw [NameMap.keys, keys]
            exact List.mem_filter.mpr
              ⟨mem_vars.mpr occurs, by simpa using captured⟩
          obtain ⟨target, isRenamed⟩ := NameMap.exists_lookup_of_mem isKey
          rw [unrenamed] at isRenamed
          cases isRenamed

theorem meant_of_refresh
    (keys : renames.map Prod.fst =
      pattern.vars.filter
        (replacements.outside pattern.vars).freeVars.contains) :
    Replacements.meant
      (.ofRenames renames ++ replacements.outside pattern.vars) =
      pattern.entered replacements.meant (Name.renamed renames) := by
  funext name
  rw [Replacements.meant, List.lookup_append, Replacements.lookup_ofRenames,
    Replacements.lookup_outside, entered]
  by_cases occurs : name ∈ pattern.occurrences
  · rw [if_pos (mem_vars.mpr occurs), if_pos occurs, Option.or_none,
      Name.renamed]
    cases renames.lookup name <;> rfl
  · have unrenamed : renames.lookup name = none := by
      apply NameMap.lookup_eq_none
      rw [NameMap.keys, keys]
      intro isKey
      exact occurs (mem_vars.mp (List.mem_filter.mp isKey).1)
    rw [if_neg (fun member => occurs (mem_vars.mp member)), if_neg occurs,
      unrenamed]
    rfl

/-- Entering a pattern renames its variables so that nothing is captured, and
changes what names stand for accordingly. -/
theorem enter_instance (patternReserved : pattern.occurrences ⊆ supply.used)
    (namesReserved : names ⊆ supply.used)
    (reserved : replacements.freeVars ⊆ supply.used) :
    (pattern.enter replacements).Ensures supply fun entered later => ∃ change,
      entered.1 = pattern.rename change ∧
      pattern.Avoids replacements.meant change names ∧
        entered.2.meant = pattern.entered replacements.meant change ∧
        entered.2.freeVars ⊆ later.used := by
  refine .bind ((Naming.refresh_spec _ supply).and
    (Naming.refresh_distinct _ supply)).keeps ?_
  intro renames later _ found
  obtain ⟨grown, ⟨keys, targets⟩, distinct⟩ := found
  refine .pure ⟨Name.renamed renames, rfl, ?_, meant_of_refresh keys, ?_⟩
  · exact avoids_of_refresh patternReserved namesReserved reserved keys
      (fun rename member => (targets rename member).1) distinct
  · intro name member
    obtain ⟨replacement, inside, occurs⟩ := List.mem_flatMap.mp member
    rcases List.mem_append.mp inside with renamed | kept
    · exact Replacements.freeVars_ofRenames
        (fun rename isRename => (targets rename isRename).2)
        (List.mem_flatMap.mpr ⟨replacement, renamed, occurs⟩)
    · have original := (List.mem_filter.mp kept).1
      exact grown
        (reserved (List.mem_flatMap.mpr ⟨replacement, original, occurs⟩))

end Pattern

namespace Expr

mutual

/-- Substitution makes an instance. -/
theorem substitute_instance {expr : Expr} {replacements : Replacements}
    {supply : NameSupply} (exprReserved : expr.allNames ⊆ supply.used)
    (reserved : replacements.freeVars ⊆ supply.used) :
    (expr.substitute replacements).Ensures supply fun result _ =>
      expr.Instance replacements.meant result := by
  match expr with
  | literal value => exact .pure rfl
  | var name => exact .pure rfl
  | tuple items | list items =>
      refine .bind (substituteList_instance exprReserved reserved) ?_
      intro results later _ found
      exact .pure ⟨results, rfl, found⟩
  | apply left right | andAlso left right | orElse left right
  | binary op left right =>
      obtain ⟨leftReserved, rightReserved⟩ := List.append_subset.mp exprReserved
      refine .bind (substitute_instance leftReserved reserved) ?_
      intro newLeft later grown leftFound
      refine .bind (substitute_instance (List.Subset.trans rightReserved grown)
        (List.Subset.trans reserved grown)) ?_
      intro newRight last _ rightFound
      exact .pure ⟨newLeft, newRight, rfl, leftFound, rightFound⟩
  | lambda param body =>
      obtain ⟨paramReserved, bodyReserved⟩ := List.append_subset.mp exprReserved
      refine .bind (Pattern.enter_instance paramReserved
        (List.Subset.trans (freeVars_subset_allNames body) bodyReserved)
        reserved) ?_
      intro entered later grown found
      obtain ⟨newParam, inner⟩ := entered
      obtain ⟨change, rfl, avoids, meant, innerReserved⟩ := found
      refine .bind (substitute_instance (List.Subset.trans bodyReserved grown)
        innerReserved) ?_
      intro newBody last _ bodyFound
      rw [meant] at bodyFound
      exact .pure ⟨change, newBody, rfl, avoids, bodyFound⟩
  | collect query | existence query =>
      refine .bind (substituteQuery_instance exprReserved reserved) ?_
      intro newQuery later _ found
      exact .pure ⟨newQuery, rfl, found⟩

theorem substituteList_instance {items : List Expr}
    {replacements : Replacements} {supply : NameSupply}
    (itemsReserved : allNamesList items ⊆ supply.used)
    (reserved : replacements.freeVars ⊆ supply.used) :
    (substituteList replacements items).Ensures supply fun results _ =>
      InstanceList replacements.meant items results := by
  match items with
  | [] => exact .pure rfl
  | item :: items =>
      obtain ⟨itemReserved, restReserved⟩ := List.append_subset.mp itemsReserved
      refine .bind (substitute_instance itemReserved reserved) ?_
      intro newItem later grown itemFound
      refine .bind
        (substituteList_instance (List.Subset.trans restReserved grown)
        (List.Subset.trans reserved grown)) ?_
      intro newItems last _ restFound
      exact .pure ⟨newItem, newItems, rfl, itemFound, restFound⟩

theorem substituteQuery_instance {query : Query} {replacements : Replacements}
    {supply : NameSupply} (queryReserved : allNamesQuery query ⊆ supply.used)
    (reserved : replacements.freeVars ⊆ supply.used) :
    (substituteQuery replacements query).Ensures supply fun result _ =>
      InstanceQuery replacements.meant query result := by
  match query with
  | ⟨scans, steps⟩ =>
      obtain ⟨scansReserved, stepsReserved⟩ :=
        List.append_subset.mp queryReserved
      refine .bind (substituteScans_instance scansReserved
        (List.Subset.trans (freeVarsSteps_subset_allNames steps) stepsReserved)
        reserved) ?_
      intro result later grown found
      refine .bind (substituteSteps_instance
        (List.Subset.trans stepsReserved grown) found.2) ?_
      intro newSteps last _ stepsFound
      exact .pure ⟨_, found.1, stepsFound⟩

theorem substituteScans_instance {scans : List Scan} {body : List Name}
    {replacements : Replacements} {supply : NameSupply}
    (scansReserved : allNamesScans scans ⊆ supply.used)
    (bodyReserved : body ⊆ supply.used)
    (reserved : replacements.freeVars ⊆ supply.used) :
    (substituteScans replacements scans).Ensures supply fun result later =>
      InstanceScans replacements.meant body scans result.1 result.2.meant ∧
        result.2.freeVars ⊆ later.used := by
  match scans with
  | [] => exact .pure ⟨⟨rfl, rfl⟩, reserved⟩
  | ⟨pattern, source⟩ :: scans =>
      rw [allNamesScans_cons, List.append_subset,
        List.append_subset] at scansReserved
      obtain ⟨⟨patternReserved, sourceReserved⟩, restReserved⟩ := scansReserved
      refine .bind (substituteSource_instance sourceReserved reserved) ?_
      intro newSource later grown sourceFound
      have scopeReserved : freeVarsScans scans body ⊆ later.used := by
        intro name member
        rcases mem_allNamesScans_or_body scans body member with inScans | inBody
        · exact grown (restReserved inScans)
        · exact grown (bodyReserved inBody)
      refine .bind (Pattern.enter_instance
        (List.Subset.trans patternReserved grown) scopeReserved
        (List.Subset.trans reserved grown)) ?_
      intro entered middle grownMiddle found
      obtain ⟨newPattern, inner⟩ := entered
      obtain ⟨change, rfl, avoids, meant, innerReserved⟩ := found
      have grownBoth := List.Subset.trans grown grownMiddle
      refine .bind
        (substituteScans_instance (List.Subset.trans restReserved grownBoth)
        (List.Subset.trans bodyReserved grownBoth) innerReserved) ?_
      intro result last _ found
      rw [meant] at found
      exact .pure ⟨⟨change, newSource, result.1, rfl, sourceFound, avoids,
        found.1⟩, found.2⟩

theorem substituteSource_instance {source : Option Expr}
    {replacements : Replacements} {supply : NameSupply}
    (sourceReserved : allNamesSource source ⊆ supply.used)
    (reserved : replacements.freeVars ⊆ supply.used) :
    (substituteSource replacements source).Ensures supply fun result _ =>
      InstanceSource replacements.meant source result := by
  match source with
  | none => exact .pure rfl
  | some source =>
      refine .bind (substitute_instance sourceReserved reserved) ?_
      intro newSource later _ found
      exact .pure ⟨newSource, rfl, found⟩

theorem substituteSteps_instance {steps : List Step}
    {replacements : Replacements} {supply : NameSupply}
    (stepsReserved : allNamesSteps steps ⊆ supply.used)
    (reserved : replacements.freeVars ⊆ supply.used) :
    (substituteSteps replacements steps).Ensures supply fun results _ =>
      InstanceSteps replacements.meant steps results := by
  match steps with
  | [] => exact .pure rfl
  | .filter expr :: steps | .yield expr :: steps =>
      obtain ⟨exprReserved, restReserved⟩ := List.append_subset.mp stepsReserved
      refine .bind (substitute_instance exprReserved reserved) ?_
      intro newExpr later grown exprFound
      refine .bind
        (substituteSteps_instance (List.Subset.trans restReserved grown)
        (List.Subset.trans reserved grown)) ?_
      intro newSteps last _ restFound
      exact .pure ⟨newExpr, newSteps, rfl, exprFound, restFound⟩

end

end Expr

theorem Pattern.enter_nil (pattern : Pattern) :
    pattern.enter [] = pure (pattern, []) := by
  have none : pattern.vars.filter
    (Replacements.freeVars (.outside pattern.vars [])).contains = [] :=
    List.filter_eq_nil_iff.mpr fun name _ => by
      simp [Replacements.outside, Replacements.freeVars]
  have unchanged : pattern.rename (Name.renamed []) = pattern :=
    pattern.rename_id
  rw [enter, none, Naming.refresh, pure_bind, unchanged]
  rfl

namespace Expr

mutual

/-- Without replacements nothing changes. -/
theorem substitute_nil (expr : Expr) : expr.substitute [] = pure expr := by
  match expr with
  | literal value => rfl
  | var name => rfl
  | tuple items
  | list items => rw [substitute, substituteList_nil items, pure_bind]
  | apply left right | andAlso left right | orElse left right
  | binary op left right =>
      rw [substitute, substitute_nil left, pure_bind, substitute_nil right,
        pure_bind]
  | lambda param body =>
      rw [substitute, param.enter_nil, pure_bind]
      dsimp only
      rw [substitute_nil body, pure_bind]
  | collect query
  | existence query => rw [substitute, substituteQuery_nil query, pure_bind]
termination_by structural expr

theorem substituteList_nil (items : List Expr) :
    substituteList [] items = pure items := by
  match items with
  | [] => rfl
  | item :: items =>
      rw [substituteList, substitute_nil item, pure_bind,
        substituteList_nil items, pure_bind]
termination_by structural items

theorem substituteQuery_nil (query : Query) :
    substituteQuery [] query = pure query := by
  match query with
  | ⟨scans, steps⟩ =>
      rw [substituteQuery, substituteScans_nil scans, pure_bind]
      dsimp only
      rw [substituteSteps_nil steps, pure_bind]
termination_by structural query

theorem substituteScans_nil (scans : List Scan) :
    substituteScans [] scans = pure (scans, []) := by
  match scans with
  | [] => rfl
  | ⟨pattern, source⟩ :: scans =>
      rw [substituteScans, substituteSource_nil source, pure_bind,
        pattern.enter_nil, pure_bind]
      dsimp only
      rw [substituteScans_nil scans, pure_bind]
termination_by structural scans

theorem substituteSource_nil (source : Option Expr) :
    substituteSource [] source = pure source := by
  match source with
  | none => rfl
  | some source => rw [substituteSource, substitute_nil source, pure_bind]
termination_by structural source

theorem substituteSteps_nil (steps : List Step) :
    substituteSteps [] steps = pure steps := by
  match steps with
  | [] => rfl
  | .filter expr :: steps | .yield expr :: steps =>
      rw [substituteSteps, substitute_nil expr, pure_bind,
        substituteSteps_nil steps, pure_bind]
termination_by structural steps

end

end Expr

end RecursiveQuery
