import Mathlib.Logic.Relator
import RecursiveQuery.Evaluation.Load
import RecursiveQuery.Proofs.Instances
import RecursiveQuery.Proofs.Outcomes

/-!
# Corresponding values

Two evaluations of one expression make the same values up to what nothing can
tell apart: the sites at which functions were made, as long as these are paired
one to one, and the variables that a function does not mention.  The same holds
for an expression and an instance of it, if names stand for what has the same
value.
-/

namespace RecursiveQuery

namespace Expr

mutual

/-- The value of an expression that only puts variables and literals
together. -/
def valueIn (env : List (Name × Value)) : Expr → Option Value
  | literal value => some (.ofLiteral value)
  | var name => List.lookup name env
  | tuple items => (valuesIn env items).map .tuple
  | _ => none

def valuesIn (env : List (Name × Value)) : List Expr → Option (List Value)
  | [] => some []
  | item :: items =>
      match valueIn env item, valuesIn env items with
      | some value, some values => some (value :: values)
      | _, _ => none

end

mutual

theorem valueIn_congr {env env' : Env} (expr : Expr)
    (same : ∀ name ∈ expr.freeVars, env.lookup name = env'.lookup name) :
    expr.valueIn env = expr.valueIn env' := by
  cases expr with
  | var name => exact same name List.mem_cons_self
  | tuple items => rw [valueIn, valueIn, valuesIn_congr items same]
  | _ => rfl

theorem valuesIn_congr {env env' : Env} (items : List Expr)
    (same : ∀ name ∈ freeVarsList items, env.lookup name = env'.lookup name) :
    valuesIn env items = valuesIn env' items := by
  cases items with
  | nil => rfl
  | cons item items =>
      obtain ⟨itemSame, restSame⟩ := List.forall_mem_append.mp same
      rw [valuesIn, valuesIn, valueIn_congr item itemSame,
        valuesIn_congr items restSame]

end

mutual

theorem eval_of_valueIn {session : Session} {call : Caller} {env : Env}
    {site : Site} {expr : Expr} {value : Value}
    (found : expr.valueIn env = some value) :
    eval session call env site expr = .ok value := by
  cases expr with
  | literal value =>
      cases found
      rfl
  | var name =>
      have bound : env.lookup name = some value := found
      rw [eval, Session.lookup, bound]
      rfl
  | tuple items =>
      obtain ⟨values, foundItems, rfl⟩ := Option.map_eq_some_iff.mp found
      rw [eval, evalList_of_valuesIn foundItems]
      rfl
  | _ => cases found

theorem evalList_of_valuesIn {session : Session} {call : Caller} {env : Env}
    {site : Site} {items : List Expr} {values : List Value}
    (found : valuesIn env items = some values) :
    evalList session call env site items = .ok values := by
  cases items with
  | nil =>
      cases found
      rfl
  | cons item items =>
      rw [valuesIn] at found
      split at found
      · next first rest foundFirst foundRest =>
          cases found
          rw [evalList, eval_of_valueIn foundFirst,
            evalList_of_valuesIn foundRest]
          rfl
      · cases found

end

section Values

variable {holds : Value → Prop} {env : Env}

mutual

/-- What holds of literals and variables and passes to tuples holds of what is
put together from them. -/
theorem valueIn_forall (literals : ∀ value, holds (.ofLiteral value))
    (tuples : ∀ items, (∀ item ∈ items, holds item) → holds (.tuple items))
    (known : ∀ name value, env.lookup name = some value → holds value)
    {expr : Expr} {value : Value} (found : expr.valueIn env = some value) :
    holds value := by
  cases expr with
  | literal value =>
      cases found
      exact literals value
  | var name => exact known name value found
  | tuple items =>
      obtain ⟨values, foundItems, rfl⟩ := Option.map_eq_some_iff.mp found
      exact tuples values (valuesIn_forall literals tuples known foundItems)
  | _ => cases found

theorem valuesIn_forall (literals : ∀ value, holds (.ofLiteral value))
    (tuples : ∀ items, (∀ item ∈ items, holds item) → holds (.tuple items))
    (known : ∀ name value, env.lookup name = some value → holds value)
    {items : List Expr} {values : List Value}
    (found : valuesIn env items = some values) :
    ∀ value ∈ values, holds value := by
  cases items with
  | nil =>
      cases found
      intro value member
      cases member
  | cons item items =>
      rw [valuesIn] at found
      split at found
      · next first rest foundFirst foundRest =>
          cases found
          exact List.forall_mem_cons.mpr
            ⟨valueIn_forall literals tuples known foundFirst,
            valuesIn_forall literals tuples known foundRest⟩
      · cases found

end

end Values

end Expr

/-- The same value up to paired sites of functions, up to variables that a
function does not mention, and up to the names of the others. -/
inductive Value.Corresponds (sites : Site → Site → Prop) :
    Value → Value → Prop where
  | unit : Corresponds sites .unit .unit
  | bool (value : Bool) : Corresponds sites (.bool value) (.bool value)
  | int (value : Int64) : Corresponds sites (.int value) (.int value)
  | str (value : String) : Corresponds sites (.str value) (.str value)
  | tuple {items items' : List Value} :
      List.Forall₂ (Corresponds sites) items items' →
      Corresponds sites (.tuple items) (.tuple items')
  | collection (kind : CollectionKind) {rows rows' : List Value} :
      List.Forall₂ (Corresponds sites) rows rows' →
      Corresponds sites (.collection kind rows) (.collection kind rows')
  | closure {site site' : Site} {param param' : Pattern} {body body' : Expr}
      {env env' : List (Name × Value)} {meant : Name → Expr} :
        sites site site' →
      (Expr.lambda param body).Instance meant (.lambda param' body') →
      (∀ name ∈ (Expr.lambda param body).freeVars,
        Option.Rel (Corresponds sites) (List.lookup name env)
          ((meant name).valueIn env')) →
      (∀ name ∈ (Expr.lambda param body).freeVars, List.lookup name env = none →
        meant name = .var name) →
      Corresponds sites (.closure ⟨site, param, body, env⟩)
        (.closure ⟨site', param', body', env'⟩)
  | builtin (function : Builtin) :
      Corresponds sites (.builtin function) (.builtin function)
  | iterateOn (kind : CollectionKind) {base base' : Value} :
      Corresponds sites base base' →
      Corresponds sites (.iterateOn kind base) (.iterateOn kind base')

/-- Corresponding values for some variables. -/
def Env.CorrespondOn (sites : Site → Site → Prop) (names : List Name)
    (env env' : Env) : Prop :=
  ∀ name ∈ names,
    Option.Rel (Value.Corresponds sites) (env.lookup name) (env'.lookup name)

/-- What names stand for has the values of some variables; a name without a
value stands for itself. -/
structure Env.Means (sites : Site → Site → Prop) (meant : Name → Expr)
    (names : List Name) (env env' : Env) : Prop where
  values : ∀ name ∈ names,
    Option.Rel (Value.Corresponds sites) (env.lookup name)
      ((meant name).valueIn env')
  unbound : ∀ name ∈ names, env.lookup name = none → meant name = .var name

namespace Value

variable {sites : Site → Site → Prop}

namespace Corresponds

mutual

theorem same_eq (unique : Relator.BiUnique sites)
    {left left' right right' : Value} (leftPair : Corresponds sites left left')
    (rightPair : Corresponds sites right right') :
    left.same right = left'.same right' := by
  cases left with
  | tuple items =>
      cases leftPair with
      | tuple pairs =>
          cases rightPair with
          | tuple others => exact sameList_eq unique pairs others
          | _ => rfl
  | collection kind rows =>
      cases leftPair with
      | collection _ pairs =>
          cases rightPair with
          | collection other others =>
              cases kind <;> cases other
              · exact sameList_eq unique pairs others
              · rfl
              · rfl
              · exact sameBag_eq unique pairs others
          | _ => cases kind <;> rfl
  | iterateOn kind base =>
      cases leftPair with
      | iterateOn _ pair =>
          cases rightPair with
          | iterateOn other otherPair =>
              rw [same, same, same_eq unique pair otherPair]
          | _ => rfl
  | closure left =>
      cases leftPair with
      | closure leftSites _ _ _ =>
          cases rightPair with
          | closure rightSites _ _ _ =>
              rw [same, same, Bool.eq_iff_iff, beq_iff_eq, beq_iff_eq]
              constructor
              · intro equality
                subst equality
                exact unique.2 leftSites rightSites
              · intro equality
                subst equality
                exact unique.1 leftSites rightSites
          | _ => rfl
  | _ =>
      cases leftPair
      cases rightPair <;> rfl

theorem sameList_eq (unique : Relator.BiUnique sites)
    {lefts lefts' rights rights' : List Value}
    (leftPairs : List.Forall₂ (Corresponds sites) lefts lefts')
    (rightPairs : List.Forall₂ (Corresponds sites) rights rights') :
    sameList lefts rights = sameList lefts' rights' := by
  cases lefts with
  | nil =>
      cases leftPairs
      cases rightPairs <;> rfl
  | cons left lefts =>
      cases leftPairs with
      | cons leftPair leftPairs =>
          cases rightPairs with
          | nil => rfl
          | cons rightPair rightPairs =>
              rw [sameList, sameList, same_eq unique leftPair rightPair,
                sameList_eq unique leftPairs rightPairs]

/-- The element that is taken away stands at the same place. -/
theorem sameBag_eq (unique : Relator.BiUnique sites)
    {lefts lefts' rights rights' : List Value}
    (leftPairs : List.Forall₂ (Corresponds sites) lefts lefts')
    (rightPairs : List.Forall₂ (Corresponds sites) rights rights') :
    sameBag lefts rights = sameBag lefts' rights' := by
  cases lefts with
  | nil =>
      cases leftPairs
      cases rightPairs <;> rfl
  | cons left lefts =>
      cases leftPairs with
      | @cons _ left' _ _ leftPair leftPairs =>
          have removed : Option.Rel (List.Forall₂ (Corresponds sites))
              (removeFirst? (fun right => left.same right) rights)
              (removeFirst? (fun right => left'.same right) rights') := by
            induction rightPairs with
            | nil => exact .none
            | cons rightPair rightPairs induction =>
                rw [removeFirst?, removeFirst?,
                  same_eq unique leftPair rightPair]
                split
                · exact .some rightPairs
                · generalize removeFirst? (fun right => left.same right) _ =
                    rest at induction
                  generalize removeFirst? (fun right => left'.same right) _ =
                    rest' at induction
                  cases induction with
                  | none => exact .none
                  | some pairs => exact .some (.cons rightPair pairs)
          rw [sameBag, sameBag]
          generalize removeFirst? (fun right => left.same right) rights =
            rest at removed
          generalize removeFirst? (fun right => left'.same right) rights' =
            rest' at removed
          cases removed with
          | none => rfl
          | some pairs => exact sameBag_eq unique leftPairs pairs

end

theorem keepsEquality (unique : Relator.BiUnique sites) :
    KeepsEquality (Corresponds sites) :=
  fun _ _ _ _ => same_eq unique

theorem ofLiteral (value : Literal) :
    Corresponds sites (Value.ofLiteral value) (Value.ofLiteral value) := by
  cases value with
  | unit => exact .unit
  | bool value => exact .bool value
  | int value => exact .int value
  | str value => exact .str value

theorem coerce {value value' : Value} (pair : Corresponds sites value value')
    (type : Option Ty) :
    Corresponds sites (value.coerce type) (value'.coerce type) := by
  cases pair with
  | collection kind rows =>
      cases kind with
      | bag => exact .collection .bag rows
      | list =>
          simp only [Value.coerce]
          split
          · exact .collection .bag rows
          · exact .collection .list rows
  | unit => exact .unit
  | bool value => exact .bool value
  | int value => exact .int value
  | str value => exact .str value
  | tuple items => exact .tuple items
  | closure sites instanced values unbound =>
      exact .closure sites instanced values unbound
  | builtin function => exact .builtin function
  | iterateOn kind base => exact .iterateOn kind base

end Corresponds

mutual

/-- Whether no function occurs in a value. -/
def isFunctionFree : Value → Bool
  | unit => true
  | bool _ => true
  | int _ => true
  | str _ => true
  | tuple items => areFunctionFree items
  | collection _ rows => areFunctionFree rows
  | closure _ => false
  | builtin _ => false
  | iterateOn _ _ => false

def areFunctionFree : List Value → Bool
  | [] => true
  | item :: items => isFunctionFree item && areFunctionFree items

end

mutual

theorem Corresponds.of_isFunctionFree {value : Value}
    (free : value.isFunctionFree = true) : Corresponds sites value value := by
  cases value with
  | unit => exact .unit
  | bool value => exact .bool value
  | int value => exact .int value
  | str value => exact .str value
  | tuple items => exact .tuple (Corresponds.of_areFunctionFree free)
  | collection kind rows =>
      exact .collection kind (Corresponds.of_areFunctionFree free)
  | closure target => cases free
  | builtin function => cases free
  | iterateOn kind base => cases free

theorem Corresponds.of_areFunctionFree {items : List Value}
    (free : areFunctionFree items = true) :
    List.Forall₂ (Corresponds sites) items items := by
  cases items with
  | nil => exact .nil
  | cons item items =>
      obtain ⟨first, rest⟩ := Bool.and_eq_true_iff.mp free
      exact .cons (Corresponds.of_isFunctionFree first)
        (Corresponds.of_areFunctionFree rest)

end

end Value

open Value (Corresponds)

namespace Env

variable {sites : Site → Site → Prop} {meant : Name → Expr}
  {names more : List Name}
  {env env' : Env}

theorem CorrespondOn.mono (pairs : CorrespondOn sites more env env')
    (subset : names ⊆ more) : CorrespondOn sites names env env' :=
  fun name member => pairs name (subset member)

theorem CorrespondOn.means (pairs : CorrespondOn sites names env env') :
    Means sites .var names env env' :=
  ⟨pairs, fun _ _ _ => rfl⟩

theorem Means.mono (pairs : Means sites meant more env env')
    (subset : names ⊆ more) : Means sites meant names env env' :=
  ⟨fun name member => pairs.values name (subset member),
    fun name member => pairs.unbound name (subset member)⟩

end Env

namespace Pattern

variable {sites : Site → Site → Prop} {meant : Name → Expr}
  {change : Name → Name}
  {names : List Name} {env env' : Env}

theorem entered_of_closed {pattern : Pattern}
    (closed : pattern.occurrences = []) :
    pattern.entered meant change = meant := by
  funext name
  rw [entered, if_neg (by simp [closed])]

theorem entered_cons (pattern : Pattern) (patterns : List Pattern) :
    (tuple (pattern :: patterns)).entered meant change =
      (tuple patterns).entered (pattern.entered meant change) change := by
  funext name
  simp only [entered, occurrences, occurrencesList, List.mem_append]
  by_cases first : name ∈ pattern.occurrences
  · simp [first]
  · simp [first]

namespace Avoids

variable {pattern : Pattern} {patterns : List Pattern}

/-- The part of a pattern that is matched first leaves the other names alone. -/
theorem head
    (avoids : (tuple (pattern :: patterns)).Avoids meant change names) :
    pattern.Avoids meant change
      (Name.outside (occurrencesList patterns) names) := by
  constructor
  · intro name occurs other otherOccurs
    exact avoids.distinct name (List.mem_append_left _ occurs) other
      (List.mem_append_left _ otherOccurs)
  · intro name isName absent bound occurs
    obtain ⟨isName, absentRest⟩ := Name.mem_outside.mp isName
    refine avoids.captureFree name isName ?_ bound
      (List.mem_append_left _ occurs)
    intro either
    exact (List.mem_append.mp either).elim absent absentRest

/-- The rest of a pattern leaves alone what the first part has bound. -/
theorem tail
    (avoids : (tuple (pattern :: patterns)).Avoids meant change names) :
    (tuple patterns).Avoids (pattern.entered meant change) change names := by
  constructor
  · intro name occurs other otherOccurs
    exact avoids.distinct name (List.mem_append_right _ occurs) other
      (List.mem_append_right _ otherOccurs)
  · intro name isName absent bound occurs member
    rw [entered] at member
    split at member
    · next first =>
        have equal :=
          avoids.distinct bound (List.mem_append_right _ occurs) name
          (List.mem_append_left _ first) (List.mem_singleton.mp member)
        exact absent (equal ▸ occurs)
    · next notFirst =>
        refine avoids.captureFree name isName ?_ bound
          (List.mem_append_right _ occurs) member
        intro either
        exact (List.mem_append.mp either).elim notFirst absent

end Avoids

theorem means_cons {name : Name} {value value' : Value}
    (avoids : (var name).Avoids meant change names)
    (pair : Corresponds sites value value')
    (pairs : Env.Means sites meant (Name.outside [name] names) env env') :
    Env.Means sites ((var name).entered meant change) names
      ((name, value) :: env) ((change name, value') :: env') := by
  have each : ∀ other ∈ names, other ≠ name →
      ((name, value) :: env).lookup other = env.lookup other ∧
        (var name).entered meant change other = meant other ∧
        other ∈ Name.outside [name] names := by
    intro other member different
    have apart : other ∉ [name] :=
      fun same => different (List.mem_singleton.mp same)
    refine ⟨?_, if_neg apart, Name.mem_outside.mpr ⟨member, apart⟩⟩
    rw [List.lookup_cons, beq_false_of_ne different]
  constructor
  · intro other member
    by_cases equal : other = name
    · subst equal
      have isBound : other ∈ (var other).occurrences :=
        List.mem_singleton.mpr rfl
      rw [entered, if_pos isBound, Expr.valueIn, List.lookup_cons_self,
        List.lookup_cons_self]
      exact .some pair
    · obtain ⟨same, unchanged, outside⟩ := each other member equal
      have apart : other ∉ [name] :=
        fun inside => equal (List.mem_singleton.mp inside)
      have unread : (meant other).valueIn ((change name, value') :: env') =
          (meant other).valueIn env' := by
        refine (meant other).valueIn_congr ?_
        intro free occurs
        have different : free ≠ change name := by
          intro captured
          exact avoids.captureFree other member apart name List.mem_cons_self
            (captured ▸ occurs)
        rw [List.lookup_cons, beq_false_of_ne different]
      rw [same, unchanged, unread]
      exact pairs.values other outside
  · intro other member none
    by_cases equal : other = name
    · subst equal
      rw [List.lookup_cons_self] at none
      cases none
    · obtain ⟨same, unchanged, outside⟩ := each other member equal
      rw [unchanged]
      exact pairs.unbound other outside (same ▸ none)

mutual

/-- A pattern and a renaming of it match both of two corresponding values or
neither, and bind corresponding values. -/
theorem bind_correspond (unique : Relator.BiUnique sites) {pattern : Pattern}
    {value value' : Value} {meant : Name → Expr} {env env' : Env}
    {names : List Name} (avoids : pattern.Avoids meant change names)
    (pair : Corresponds sites value value')
    (pairs : Env.Means sites meant (Name.outside pattern.occurrences names)
      env env') :
    Option.Rel (Env.Means sites (pattern.entered meant change) names)
      (pattern.bind value env) ((pattern.rename change).bind value' env') := by
  cases pattern with
  | wildcard =>
      rw [entered_of_closed rfl]
      exact .some (pairs.mono (by simp [occurrences, Name.outside]))
  | var name => exact .some (means_cons avoids pair pairs)
  | literal expected =>
      rw [entered_of_closed rfl, rename, bind, bind,
        Corresponds.same_eq unique (.ofLiteral expected) pair]
      split
      · exact .some (pairs.mono (by simp [occurrences, Name.outside]))
      · exact .none
  | tuple patterns =>
      cases pair with
      | tuple items => exact bindList_correspond unique avoids items pairs
      | _ => exact .none

theorem bindList_correspond (unique : Relator.BiUnique sites)
    {patterns : List Pattern} {values values' : List Value}
    {meant : Name → Expr} {env env' : Env} {names : List Name}
    (avoids : (tuple patterns).Avoids meant change names)
    (items : List.Forall₂ (Corresponds sites) values values')
    (pairs : Env.Means sites meant
      (Name.outside (occurrencesList patterns) names) env env') :
    Option.Rel (Env.Means sites ((tuple patterns).entered meant change) names)
      (bindList patterns values env)
        (bindList (renameList change patterns) values' env') := by
  cases patterns with
  | nil =>
      cases items with
      | nil =>
          rw [entered_of_closed rfl]
          exact .some (pairs.mono (by simp [occurrencesList, Name.outside]))
      | cons _ _ => exact .none
  | cons pattern patterns =>
      cases items with
      | nil => exact .none
      | @cons value value' _ _ item items =>
          have first :
            Option.Rel (Env.Means sites (pattern.entered meant change)
              (Name.outside (occurrencesList patterns) names))
              (pattern.bind value env)
              ((pattern.rename change).bind value' env') := by
            refine bind_correspond unique avoids.head item (pairs.mono ?_)
            intro name member
            simp only [Name.mem_outside, occurrencesList,
              List.mem_append] at member ⊢
            exact ⟨member.1.1, fun either => either.elim member.2 member.1.2⟩
          rw [entered_cons, renameList, bindList, bindList]
          generalize pattern.bind value env = inner at first
          generalize (pattern.rename change).bind value' env' = inner' at first
          cases first with
          | none => exact .none
          | some inner =>
              exact bindList_correspond unique avoids.tail items inner

end

/-- Corresponding rows that match, at the same place and with corresponding
variables. -/
def EntriesCorrespond (sites : Site → Site → Prop) (meant : Name → Expr)
    (names : List Name) (entry entry' : Nat × Value × Env) : Prop :=
  entry.1 = entry'.1 ∧ Corresponds sites entry.2.1 entry'.2.1 ∧
    Env.Means sites meant names entry.2.2 entry'.2.2

theorem matching_correspond (unique : Relator.BiUnique sites)
    {pattern : Pattern} {rows rows' : List Value}
    (avoids : pattern.Avoids meant change names)
    (rowPairs : List.Forall₂ (Corresponds sites) rows rows')
    (pairs : Env.Means sites meant (Name.outside pattern.occurrences names)
      env env') :
    List.Forall₂ (EntriesCorrespond sites (pattern.entered meant change) names)
      (pattern.matching env rows)
        ((pattern.rename change).matching env' rows') := by
  have numbered : ∀ start, List.Forall₂
      (fun (left right : Value × Nat) => Corresponds sites left.1 right.1 ∧
        left.2 = right.2)
      (rows.zipIdx start) (rows'.zipIdx start) := by
    induction rowPairs with
    | nil =>
        intro start
        exact .nil
    | cons rowPair _ induction =>
        intro start
        exact .cons ⟨rowPair, rfl⟩ (induction (start + 1))
  refine List.rel_filterMap ?_ (numbered 0)
  intro left right pair
  obtain ⟨row, index⟩ := left
  obtain ⟨row', index'⟩ := right
  obtain ⟨rowPair, sameIndex⟩ := pair
  have bound := bind_correspond unique avoids rowPair pairs
  dsimp only at sameIndex bound ⊢
  subst sameIndex
  generalize pattern.bind row env = inner at bound
  generalize (pattern.rename change).bind row' env' = inner' at bound
  cases bound with
  | none => exact .none
  | some inner => exact .some ⟨rfl, rowPair, inner⟩

end Pattern

end RecursiveQuery
