import RecursiveQuery.Proofs.ConjunctionInversion
import RecursiveQuery.Proofs.SeparateScans

/-!
# Chosen values

Where scans end, their variables have values, and values can be chosen for
variables under other names.  The two agree on all names in use.
-/

namespace RecursiveQuery

/-- Names for some variables that are different and clash with no other name in
use. -/
structure Name.Apart (change : Name → Name) (names used : List Name) :
    Prop where
  subset : names ⊆ used
  injective : ∀ name ∈ used, ∀ other ∈ used, change name = change other →
    name = other
  fixed : ∀ name ∉ names, change name = name

theorem Name.Apart.not_mem_map {change : Name → Name} {names used : List Name}
    (apart : Apart change names used) {name : Name} (isUsed : name ∈ used)
    (absent : name ∉ names) : name ∉ names.map change := by
  intro member
  obtain ⟨other, isName, equal⟩ := List.mem_map.mp member
  rw [← apart.fixed name absent] at equal
  exact absent
    (apart.injective other (apart.subset isName) name isUsed equal ▸ isName)

namespace Env

variable {change : Name → Name} {names used : List Name} {env last chosen : Env}

/-- The values of some variables, under the new names of these. -/
theorem exists_chosen (apart : Name.Apart change names used)
    (free : last.IsFunctionFree)
    (given : ∀ name ∈ names, ∃ value, last.lookup name = some value)
    (kept : ∀ name ∈ used, name ∉ names → last.lookup name = env.lookup name) :
    ∃ chosen : Env,
      (chosen.Assigns fun name => (names.map change).contains name) ∧
      ∀ name ∈ used, (chosen ++ env).lookup (change name) =
        last.lookup name := by
  let chosen := pick names change fun name => last.lookup name
  have picked {name : Name} (isName : name ∈ names) :
      chosen.lookup (change name) = last.lookup name := by
    rw [lookup_pick fun other isOther =>
      apart.injective name (apart.subset isName) other (apart.subset isOther),
      if_pos isName]
  refine ⟨chosen, ⟨?_, ?_⟩, ?_⟩
  · intro target
    by_cases isTarget : target ∈ names.map change
    · obtain ⟨name, isName, rfl⟩ := List.mem_map.mp isTarget
      obtain ⟨value, found⟩ := given name isName
      rw [picked isName, found, List.contains_iff_mem.mpr isTarget]
      rfl
    · rw [lookup_pick_eq_none isTarget]
      simpa using isTarget
  · intro target value found
    by_cases isTarget : target ∈ names.map change
    · obtain ⟨name, isName, rfl⟩ := List.mem_map.mp isTarget
      rw [picked isName] at found
      exact free name value found
    · rw [lookup_pick_eq_none isTarget] at found
      cases found
  · intro name isUsed
    rw [List.lookup_append]
    by_cases isName : name ∈ names
    · obtain ⟨value, found⟩ := given name isName
      rw [picked isName, found, Option.some_or]
    · rw [apart.fixed name isName,
        lookup_pick_eq_none (apart.not_mem_map isUsed isName), Option.none_or,
        kept name isUsed isName]

/-- Values for the new names of some variables, under their old names. -/
theorem exists_original (apart : Name.Apart change names used)
    (free : env.IsFunctionFree)
    (assigns : chosen.Assigns fun name => (names.map change).contains name) :
    ∃ full : Env, full.IsFunctionFree ∧
      (∀ name ∈ names, ∃ value, full.lookup name = some value) ∧
      (∀ name ∉ names, full.lookup name = env.lookup name) ∧
      ∀ name ∈ used, (chosen ++ env).lookup (change name) =
        full.lookup name := by
  let original := pick names id fun name => chosen.lookup (change name)
  have picked (name : Name) :
      original.lookup name = if name ∈ names then chosen.lookup (change name)
        else none :=
    @lookup_pick names id (fun name => chosen.lookup (change name)) name
      fun _ _ equal => equal
  have exists_value {name : Name} (isName : name ∈ names) :
      ∃ value, chosen.lookup (change name) = some value := by
    apply assigns.exists_lookup
    exact List.contains_iff_mem.mpr (List.mem_map_of_mem isName)
  have here {name : Name} (isName : name ∈ names) :
      (original ++ env).lookup name = chosen.lookup (change name) := by
    obtain ⟨value, found⟩ := exists_value isName
    rw [List.lookup_append, picked, if_pos isName, found, Option.some_or]
  have outside {name : Name} (absent : name ∉ names) :
      (original ++ env).lookup name = env.lookup name := by
    rw [List.lookup_append, picked, if_neg absent, Option.none_or]
  refine ⟨original ++ env, ?_, ?_, fun name => outside, ?_⟩
  · intro name value found
    by_cases isName : name ∈ names
    · rw [here isName] at found
      exact assigns.functionFree _ value found
    · rw [outside isName] at found
      exact free name value found
  · intro name isName
    rw [here isName]
    exact exists_value isName
  · intro name isUsed
    by_cases isName : name ∈ names
    · obtain ⟨value, found⟩ := exists_value isName
      rw [here isName, List.lookup_append, found, Option.some_or]
    · have absent : chosen.lookup name = none := by
        apply assigns.lookup_eq_none
        simpa using apart.not_mem_map isUsed isName
      rw [outside isName, apart.fixed name isName, List.lookup_append, absent,
        Option.none_or]

end Env

theorem Expr.isFunctionFree_of_valueIn {env : Env} (free : env.IsFunctionFree)
    {expr : Expr} {value : Value} (found : expr.valueIn env = some value) :
    value.isFunctionFree = true := by
  refine valueIn_forall (fun value => ?_) (fun items each => ?_) free found
  · exact Value.isFunctionFree_of_plain (Value.plain_ofLiteral value)
  · exact Value.areFunctionFree_iff.mpr each

namespace Session

variable {session : Session} {env inner other : Env} {source : Expr}
  {site site' : Site}
variable {kind : CollectionKind} {rows : List Value}

/-- Rows that have no functions in one evaluation are the rows of another
one. -/
theorem rows_eq_of_free (uniform : session.Uniform) (started : Started site)
    (started' : Started site')
    (free : ∀ name ∈ source.freeVars, ∀ value, inner.lookup name = some value →
      value.isFunctionFree = true)
    (same : ∀ name ∈ source.freeVars, other.lookup name = inner.lookup name)
    (rowsFree : ∀ kind rows, session.evalIn site' other source =
      .ok (.collection kind rows) → ∀ row ∈ rows, row.isFunctionFree = true)
    (evaluated : session.evalIn site inner source =
      .ok (.collection kind rows)) :
    session.evalIn site' other source = .ok (.collection kind rows) := by
  have share : Env.Share source.freeVars inner other := ⟨same, free⟩
  have shareBack : Env.Share source.freeVars other inner := by
    refine ⟨fun name member => (same name member).symm, ?_⟩
    intro name member value found
    exact free name member value ((same name member).symm.trans found)
  obtain ⟨value, evaluatedOther, pair⟩ :=
    exists_evalIn uniform started started' share evaluated
  cases pair with
  | @collection _ _ others _ =>
      have othersFree : (Value.collection kind others).isFunctionFree = true :=
        Value.areFunctionFree_iff.mpr (rowsFree kind others evaluatedOther)
      obtain ⟨value, evaluatedAgain, pair⟩ :=
        exists_evalIn uniform started' started shareBack evaluatedOther
      rw [evaluated] at evaluatedAgain
      cases evaluatedAgain
      cases pair.eq_of_isFunctionFree othersFree
      exact evaluatedOther

/-- Rows that have neither bags nor functions in one evaluation are the rows of
another one. -/
theorem rows_eq_of_plain (uniform : session.Uniform) (started : Started site)
    (started' : Started site') (free : inner.IsFunctionFree)
    (same : ∀ name ∈ source.freeVars, other.lookup name = inner.lookup name)
    (plain : ∀ kind rows, session.evalIn site' other source =
      .ok (.collection kind rows) → ∀ row ∈ rows, row.toExpr?.isSome = true)
    (evaluated : session.evalIn site inner source =
      .ok (.collection kind rows)) :
    session.evalIn site' other source = .ok (.collection kind rows) := by
  apply rows_eq_of_free uniform started started' (fun name _ => free name) same
    _ evaluated
  intro kind rows evaluatedOther row member
  exact Value.isFunctionFree_of_plain
    (plain kind rows evaluatedOther row member)

/-- Rows that have neither bags nor functions in an evaluation of their own have
none inside any other. -/
theorem yieldsPlainly_of_root (uniform : session.Uniform)
    (free : env.IsFunctionFree) {number : Nat}
    (atRoot : ∀ inner, env.ExtendsPlainly inner → ∀ kind rows,
      session.evalIn (root number) inner source = .ok (.collection kind rows) →
      ∀ row ∈ rows, row.toExpr?.isSome = true) :
      session.YieldsPlainly env source := by
  intro inner extended site kind rows started evaluated
  have plain := atRoot inner extended
  exact plain kind rows (rows_eq_of_plain uniform started (.root number)
    (extended.isFunctionFree free) (fun _ _ => rfl) plain evaluated)

/-- What a source yields depends on its variables only. -/
theorem YieldsPlainly.of_agree (plain : session.YieldsPlainly env source)
    (uniform : session.Uniform) (free : other.IsFunctionFree)
    (same : ∀ name ∈ source.freeVars, env.lookup name = other.lookup name) :
    session.YieldsPlainly other source := by
  intro inner extended site kind rows started evaluated
  let full : Env :=
    .pick source.freeVars id (fun name => inner.lookup name) ++ env
  have picked (name : Name) :
      (Env.pick source.freeVars id fun name => inner.lookup name).lookup name =
        if name ∈ source.freeVars then inner.lookup name else none :=
    @Env.lookup_pick source.freeVars id (fun name => inner.lookup name) name
      fun _ _ equal => equal
  have looked (name : Name) : full.lookup name =
      (if name ∈ source.freeVars then inner.lookup name else none).or
      (env.lookup name) := by
    rw [List.lookup_append, picked]
  have agrees : ∀ name ∈ source.freeVars, full.lookup name =
    inner.lookup name := by
    intro name member
    rw [looked, if_pos member]
    rcases extended name with kept | ⟨value, isValue, _⟩
    · rw [kept, same name member, Option.or_self]
    · rw [isValue, Option.some_or]
  have extendedFull : env.ExtendsPlainly full := by
    intro name
    by_cases member : name ∈ source.freeVars
    · rw [agrees name member, same name member]
      exact extended name
    · rw [looked, if_neg member, Option.none_or]
      exact .inl rfl
  have plainFull :=
    fun kind rows => plain full extendedFull site kind rows started
  exact plainFull kind rows (rows_eq_of_plain uniform started started
    (extended.isFunctionFree free) agrees plainFull evaluated)

end Session

end RecursiveQuery
