import RecursiveQuery.Proofs.JoinedClauses

/-!
# Rows without bags and functions

Equality tells all values apart that hold neither bags nor functions.  Matching
such a row against a pattern and rebuilding the row from the variables undo each
other, and what is evaluated at two places has the same such rows.
-/

namespace RecursiveQuery

namespace Value

variable {items : List Value}

mutual

theorem isFunctionFree_of_plain {value : Value}
    (isPlain : value.toExpr?.isSome = true) : value.isFunctionFree = true := by
  cases value with
  | tuple items =>
      rw [toExpr?, Option.isSome_map] at isPlain
      exact areFunctionFree_of_plain isPlain
  | collection kind rows =>
      cases kind with
      | bag => cases isPlain
      | list =>
          rw [toExpr?, Option.isSome_map] at isPlain
          exact areFunctionFree_of_plain isPlain
  | closure target => cases isPlain
  | builtin name => cases isPlain
  | iterateOn kind base => cases isPlain
  | _ => rfl

theorem areFunctionFree_of_plain {items : List Value}
    (arePlain : (toExprs? items).isSome = true) :
    areFunctionFree items = true := by
  cases items with
  | nil => rfl
  | cons item items =>
      rw [toExprs?] at arePlain
      split at arePlain
      · next expr exprs foundFirst foundRest =>
          exact Bool.and_eq_true_iff.mpr
            ⟨isFunctionFree_of_plain (Option.isSome_of_eq_some foundFirst),
              areFunctionFree_of_plain (Option.isSome_of_eq_some foundRest)⟩
      · cases arePlain

end

theorem plain_of_mem (arePlain : (toExprs? items).isSome = true) :
    ∀ item ∈ items, item.toExpr?.isSome = true := by
  induction items with
  | nil =>
      intro item member
      cases member
  | cons item items induction =>
      rw [toExprs?] at arePlain
      split at arePlain
      · next expr exprs foundFirst foundRest =>
          exact List.forall_mem_cons.mpr ⟨Option.isSome_of_eq_some foundFirst,
            induction (Option.isSome_of_eq_some foundRest)⟩
      · cases arePlain

theorem plain_tuple_iff :
    (tuple items).toExpr?.isSome = true ↔
    ∀ item ∈ items, item.toExpr?.isSome = true := by
  rw [toExpr?, Option.isSome_map]
  refine ⟨plain_of_mem, ?_⟩
  intro each
  induction items with
  | nil => rfl
  | cons item items induction =>
      rw [List.forall_mem_cons] at each
      obtain ⟨expr, found⟩ := Option.isSome_iff_exists.mp each.1
      obtain ⟨exprs, foundRest⟩ :=
        Option.isSome_iff_exists.mp (induction each.2)
      rw [toExprs?, found, foundRest]
      rfl

theorem plain_ofLiteral (value : Literal) :
    (ofLiteral value).toExpr?.isSome = true := by
  cases value <;> rfl

section Corresponding

variable {sites : Site → Site → Prop}

mutual

/-- A value without functions corresponds to no other one. -/
theorem Corresponds.eq_of_isFunctionFree {value value' : Value}
    (pair : Corresponds sites value value')
    (free : value.isFunctionFree = true) : value' = value := by
  cases value with
  | tuple items =>
      cases pair with
      | tuple pairs =>
          exact congrArg Value.tuple
            (Corresponds.eq_of_areFunctionFree pairs free)
  | collection kind rows =>
      cases pair with
      | collection _ pairs =>
          exact congrArg (Value.collection kind)
            (Corresponds.eq_of_areFunctionFree pairs free)
  | closure target => cases free
  | builtin name => cases free
  | iterateOn kind base => cases free
  | _ =>
      cases pair
      rfl

theorem Corresponds.eq_of_areFunctionFree {items items' : List Value}
    (pairs : List.Forall₂ (Corresponds sites) items items')
    (free : areFunctionFree items = true) : items' = items := by
  cases items with
  | nil => exact List.forall₂_nil_left_iff.mp pairs
  | cons item items =>
      cases pairs with
      | cons pair pairs =>
          obtain ⟨first, rest⟩ := Bool.and_eq_true_iff.mp free
          rw [Corresponds.eq_of_isFunctionFree pair first,
            Corresponds.eq_of_areFunctionFree pairs rest]

end

theorem areFunctionFree_iff :
    areFunctionFree items = true ↔
      ∀ item ∈ items, item.isFunctionFree = true := by
  induction items with
  | nil => simp [areFunctionFree]
  | cons item items induction =>
      rw [areFunctionFree, Bool.and_eq_true_iff, induction,
        List.forall_mem_cons]

end Corresponding

end Value

namespace Pattern

mutual

/-- A value that variables build matches the pattern with these variables
again. -/
theorem exists_bind_of_readIn {pattern : Pattern} {env : Env} {value : Value}
    (read : pattern.ReadIn env value) (bound : Env) :
    ∃ inner, pattern.bind value bound = some inner ∧
      ∀ name ∈ pattern.occurrences, inner.lookup name = env.lookup name := by
  cases pattern with
  | wildcard => exact ⟨bound, rfl, nofun⟩
  | var name =>
      refine ⟨(name, value) :: bound, rfl, ?_⟩
      intro other occurs
      have found : env.lookup name = some value := read
      rw [List.mem_singleton.mp occurs, found, List.lookup_cons_self]
  | literal expected =>
      have same : (Value.ofLiteral expected).same value = true := read
      refine ⟨bound, ?_, nofun⟩
      rw [bind, same, if_pos rfl]
  | tuple patterns =>
      cases value with
      | tuple items => exact exists_bindList_of_readEachIn read bound
      | _ => cases read

theorem exists_bindList_of_readEachIn {patterns : List Pattern} {env : Env}
    {items : List Value} (read : ReadEachIn env patterns items) (bound : Env) :
    ∃ inner, bindList patterns items bound = some inner ∧
      ∀ name ∈ occurrencesList patterns, inner.lookup name =
        env.lookup name := by
  match patterns, items with
  | [], [] => exact ⟨bound, rfl, nofun⟩
  | [], _ :: _ => cases read
  | _ :: _, [] => cases read
  | pattern :: patterns, item :: items =>
      obtain ⟨middle, bindsFirst, keepsFirst⟩ :=
        exists_bind_of_readIn read.1 bound
      obtain ⟨inner, bindsRest, keepsRest⟩ :=
        exists_bindList_of_readEachIn read.2 middle
      refine ⟨inner, ?_, ?_⟩
      · rw [bindList, bindsFirst]
        exact bindsRest
      · intro name occurs
        by_cases later : name ∈ occurrencesList patterns
        · exact keepsRest name later
        · have here := (List.mem_append.mp occurs).resolve_right later
          exact (lookup_of_bindList bindsRest later).trans
            (keepsFirst name here)

end

mutual

/-- Variables with values build a value. -/
theorem exists_readIn {pattern : Pattern} {env : Env}
    (given : ∀ name ∈ pattern.occurrences, ∃ value, env.lookup name =
      some value) :
    ∃ value, pattern.ReadIn env value := by
  cases pattern with
  | wildcard => exact ⟨.unit, trivial⟩
  | var name => exact given name List.mem_cons_self
  | literal expected => exact ⟨.ofLiteral expected, Value.Alike.refl _⟩
  | tuple patterns =>
      obtain ⟨items, read⟩ := exists_readEachIn given
      exact ⟨.tuple items, read⟩

theorem exists_readEachIn {patterns : List Pattern} {env : Env}
    (given : ∀ name ∈ occurrencesList patterns, ∃ value, env.lookup name =
      some value) :
    ∃ items, ReadEachIn env patterns items := by
  cases patterns with
  | nil => exact ⟨[], trivial⟩
  | cons pattern patterns =>
      obtain ⟨givenFirst, givenRest⟩ := List.forall_mem_append.mp given
      obtain ⟨item, readFirst⟩ := exists_readIn givenFirst
      obtain ⟨items, readRest⟩ := exists_readEachIn givenRest
      exact ⟨item :: items, readFirst, readRest⟩

end

mutual

/-- The expression of a pattern rebuilds the value. -/
theorem valueIn_of_readIn {pattern : Pattern} {row : Expr}
    (rebuilt : pattern.toExpr? = some row) {env : Env} {value : Value}
    (read : pattern.ReadIn env value) : row.valueIn env = some value := by
  cases pattern with
  | wildcard => cases rebuilt
  | var name =>
      cases rebuilt
      exact read
  | literal expected =>
      cases rebuilt
      exact congrArg some
        (Value.eq_of_alike (Value.plain_ofLiteral expected)
          (Value.Alike.symm read)).symm
  | tuple patterns =>
      obtain ⟨rows, rebuiltItems, rfl⟩ := Option.map_eq_some_iff.mp rebuilt
      cases value with
      | tuple items =>
          rw [Expr.valueIn, valuesIn_of_readEachIn rebuiltItems read,
            Option.map_some]
      | _ => cases read

theorem valuesIn_of_readEachIn {patterns : List Pattern} {rows : List Expr}
    (rebuilt : toExprs? patterns = some rows) {env : Env} {items : List Value}
    (read : ReadEachIn env patterns items) :
    Expr.valuesIn env rows = some items := by
  match patterns, items with
  | [], [] =>
      cases rebuilt
      rfl
  | [], _ :: _ => cases read
  | _ :: _, [] => cases read
  | pattern :: patterns, item :: items =>
      rw [toExprs?] at rebuilt
      split at rebuilt
      · next first rest rebuiltFirst rebuiltRest =>
          cases rebuilt
          rw [Expr.valuesIn, valueIn_of_readIn rebuiltFirst read.1,
            valuesIn_of_readEachIn rebuiltRest read.2]
      · cases rebuilt

end

mutual

/-- What passes from tuples to their components passes from rows to
variables. -/
theorem holds_of_bind {holds : Value → Prop}
    (parts : ∀ items, holds (.tuple items) → ∀ item ∈ items, holds item)
    {pattern : Pattern} {value : Value} {env inner : Env} (isHeld : holds value)
    (binds : pattern.bind value env = some inner) {name : Name}
    (occurs : name ∈ pattern.occurrences) {found : Value}
    (lookedUp : inner.lookup name = some found) : holds found := by
  cases pattern with
  | wildcard => cases occurs
  | literal expected => cases occurs
  | var other =>
      cases binds
      rw [List.mem_singleton.mp occurs, List.lookup_cons_self] at lookedUp
      cases lookedUp
      exact isHeld
  | tuple patterns =>
      cases value with
      | tuple items =>
          exact holds_of_bindList parts (parts items isHeld) binds occurs
            lookedUp
      | _ => cases binds

theorem holds_of_bindList {holds : Value → Prop}
    (parts : ∀ items, holds (.tuple items) → ∀ item ∈ items, holds item)
    {patterns : List Pattern} {items : List Value} {env inner : Env}
    (areHeld : ∀ item ∈ items, holds item)
    (binds : bindList patterns items env = some inner) {name : Name}
    (occurs : name ∈ occurrencesList patterns) {found : Value}
    (lookedUp : inner.lookup name = some found) : holds found := by
  match patterns, items with
  | [], _ => cases occurs
  | _ :: _, [] => cases binds
  | pattern :: patterns, item :: items =>
      rw [List.forall_mem_cons] at areHeld
      obtain ⟨middle, first, binds⟩ := of_bindList_cons binds
      by_cases later : name ∈ occurrencesList patterns
      · exact holds_of_bindList parts areHeld.2 binds later lookedUp
      · have here := (List.mem_append.mp occurs).resolve_right later
        rw [lookup_of_bindList binds later] at lookedUp
        exact holds_of_bind parts areHeld.1 first here lookedUp

end

/-- The variables of a row without bags and functions have such values. -/
theorem plain_of_bind {pattern : Pattern} {value : Value} {env inner : Env}
    (isPlain : value.toExpr?.isSome = true)
    (binds : pattern.bind value env = some inner) {name : Name}
    (occurs : name ∈ pattern.occurrences) {found : Value}
    (lookedUp : inner.lookup name = some found) :
    found.toExpr?.isSome = true := by
  have parts (items : List Value)
    (arePlain : (Value.tuple items).toExpr?.isSome = true) :
      ∀ item ∈ items, item.toExpr?.isSome = true :=
        Value.plain_tuple_iff.mp arePlain
  exact @holds_of_bind (fun value => value.toExpr?.isSome = true) parts _ _ _ _
    isPlain binds _ occurs _ lookedUp

end Pattern

namespace Env

/-- The values of some variables under other names. -/
def pick (names : List Name) (change : Name → Name)
    (value : Name → Option Value) : Env :=
  names.filterMap fun name => (value name).map (change name, ·)

variable {names : List Name} {change : Name → Name}
  {value : Name → Option Value}

theorem lookup_pick {name : Name}
    (distinct : ∀ other ∈ names, change name = change other → name = other) :
    (pick names change value).lookup (change name) =
      if name ∈ names then value name else none := by
  induction names with
  | nil => rfl
  | cons other names induction =>
      rw [List.forall_mem_cons] at distinct
      have later := induction distinct.2
      rw [pick, List.filterMap_cons]
      cases found : value other with
      | none =>
          refine later.trans ?_
          by_cases equal : name = other
          · subst equal
            rw [found, ite_self, ite_self]
          · simp only [List.mem_cons, equal, false_or]
      | some first =>
          rw [Option.map_some, List.lookup_cons]
          by_cases equal : change name = change other
          · have same := distinct.1 equal
            subst same
            rw [beq_self_eq_true, if_pos List.mem_cons_self, found]
          · have different : name ≠ other :=
              fun same => equal (congrArg change same)
            rw [beq_false_of_ne equal]
            refine later.trans ?_
            simp only [List.mem_cons, different, false_or]

theorem lookup_pick_eq_none {target : Name}
    (absent : target ∉ names.map change) :
    (pick names change value).lookup target = none := by
  apply NameMap.lookup_eq_none
  intro isKey
  obtain ⟨entry, member, isTarget⟩ := List.mem_map.mp isKey
  obtain ⟨name, isName, picked⟩ := List.mem_filterMap.mp member
  obtain ⟨found, _, equality⟩ := Option.map_eq_some_iff.mp picked
  subst equality
  exact absent (List.mem_map.mpr ⟨name, isName, isTarget⟩)

end Env

end RecursiveQuery
