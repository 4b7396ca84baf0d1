import Mathlib.Data.Set.Finite.Lattice
import Mathlib.Data.Set.Finite.Monad
import RecursiveQuery.Proofs.ChosenValues
import RecursiveQuery.Proofs.LoopFree

/-!
# Finitely many rows

Some values, their parts, and all truth values and integers are finitely many.
A source that selects its rows among the values of variables and those of
relations which are given stays inside such a universe, and so do rows with a
fixed number of components.
-/

namespace RecursiveQuery

open Outcome (Concludes)

variable {value : Value}

namespace Value

variable {given : List Value} {inside : Value → Prop}

/-- Values that need not be given, since there are finitely many of them. -/
inductive IsAtom : Value → Prop where
  | unit : IsAtom .unit
  | bool (value : Bool) : IsAtom (.bool value)
  | int (value : Int64) : IsAtom (.int value)
  | builtin (function : Builtin) : IsAtom (.builtin function)

/-- The components of a tuple or the rows of a collection. -/
def children : Value → List Value
  | tuple items => items
  | collection _ rows => rows
  | _ => []

mutual

/-- A value and everything that patterns and scans find in it. -/
def parts : Value → List Value
  | tuple items => tuple items :: partsList items
  | collection kind rows => collection kind rows :: partsList rows
  | unit => [unit]
  | bool value => [bool value]
  | int value => [int value]
  | str value => [str value]
  | closure target => [closure target]
  | builtin function => [builtin function]
  | iterateOn kind base => [iterateOn kind base]

def partsList : List Value → List Value
  | [] => []
  | value :: values => parts value ++ partsList values

end

theorem parts_eq (value : Value) :
    value.parts = value :: partsList value.children := by
  cases value <;> rfl

theorem mem_parts_self (value : Value) : value ∈ value.parts := by
  rw [parts_eq]
  exact List.mem_cons_self

theorem mem_partsList {values : List Value} {part : Value} :
    part ∈ partsList values ↔ ∃ value ∈ values, part ∈ value.parts := by
  induction values with
  | nil => simp [partsList]
  | cons value values induction => simp [partsList, induction]

mutual

theorem mem_parts_of_child {value whole child : Value}
    (isPart : whole ∈ value.parts) (isChild : child ∈ whole.children) :
    child ∈ value.parts := by
  rw [parts_eq] at isPart
  rcases List.mem_cons.mp isPart with same | inside
  · subst same
    rw [parts_eq]
    exact List.mem_cons_of_mem _
      (mem_partsList.mpr ⟨child, isChild, mem_parts_self child⟩)
  · cases value with
    | tuple items | collection kind items =>
        exact List.mem_cons_of_mem _ (mem_partsList_of_child inside isChild)
    | _ => cases inside

theorem mem_partsList_of_child {values : List Value} {whole child : Value}
    (isPart : whole ∈ partsList values) (isChild : child ∈ whole.children) :
    child ∈ partsList values := by
  cases values with
  | nil => cases isPart
  | cons value values =>
      rcases List.mem_append.mp isPart with here | later
      · exact List.mem_append_left _ (mem_parts_of_child here isChild)
      · exact List.mem_append_right _ (mem_partsList_of_child later isChild)

end

/-- A class of values with all atoms and some given values that passes to
parts. -/
structure IsUniverse (given : List Value) (inside : Value → Prop) : Prop where
  atoms : ∀ value, value.IsAtom → inside value
  children : ∀ value, inside value → ∀ child ∈ value.children, inside child
  given : ∀ value ∈ given, inside value

theorem IsUniverse.mono {more : List Value}
    (isUniverse : IsUniverse more inside) (subset : given ⊆ more) :
    IsUniverse given inside :=
  ⟨isUniverse.atoms, isUniverse.children, fun value isGiven =>
    isUniverse.given value (subset isGiven)⟩

theorem IsUniverse.mono_right {known more : List Value}
    (isUniverse : IsUniverse (known ++ more) inside) (subset : given ⊆ more) :
    IsUniverse (known ++ given) inside :=
  isUniverse.mono (List.append_subset.mpr
    ⟨List.subset_append_left _ _, List.subset_append_of_subset_right _ subset⟩)

/-- An atom or a part of a given value. -/
def Within (given : List Value) (value : Value) : Prop :=
  value.IsAtom ∨ value ∈ partsList given

theorem isUniverse_within (given : List Value) :
    IsUniverse given (Within given) := by
  refine ⟨fun value isAtom => .inl isAtom, ?_, ?_⟩
  · intro value isWithin child isChild
    rcases isWithin with isAtom | isPart
    · cases isAtom <;> cases isChild
    · exact .inr (mem_partsList_of_child isPart isChild)
  · intro value isGiven
    exact .inr (mem_partsList.mpr ⟨value, isGiven, mem_parts_self value⟩)

theorem finite_atoms : {value : Value | value.IsAtom}.Finite := by
  have integers : Finite Int64 :=
    Finite.of_injective (fun value => value.toBitVec.toFin)
    fun _ _ same => Int64.toBitVec_inj.mp (BitVec.eq_of_toFin_eq same)
  let others : List Value :=
    [unit, bool false, bool true] ++ Builtin.all.map builtin
  refine ((Set.finite_range int).union others.finite_toSet).subset ?_
  intro value isAtom
  cases isAtom with
  | unit => exact .inr (by simp [others])
  | bool value => cases value <;> exact .inr (by simp [others])
  | int value => exact .inl ⟨value, rfl⟩
  | builtin function =>
      cases function with
      | not => exact .inr (by simp [others, Builtin.all])
      | iterate kind =>
          cases kind <;> exact .inr (by simp [others, Builtin.all])

theorem finite_within (given : List Value) :
    {value | Within given value}.Finite :=
  finite_atoms.union (partsList given).finite_toSet

/-- A row of so many components of a class, or a value of it. -/
def IsRowOf (inside : Value → Prop) (count : Nat) (row : Value) : Prop :=
  inside row ∨ (count ≠ 1 ∧
    ∃ items, items.length = count ∧ (∀ item ∈ items, inside item) ∧
    row = .tuple items)

theorem finite_lists (finite : {value | inside value}.Finite) (count : Nat) :
    {items : List Value | items.length = count ∧
      ∀ item ∈ items, inside item}.Finite := by
  induction count with
  | zero =>
      refine (Set.finite_singleton []).subset ?_
      intro items areItems
      exact List.eq_nil_of_length_eq_zero areItems.1
  | succ count induction =>
      refine (finite.image2 List.cons induction).subset ?_
      intro items areItems
      obtain ⟨length, areInside⟩ := areItems
      cases items with
      | nil => cases length
      | cons item items =>
          rw [List.forall_mem_cons] at areInside
          exact ⟨item, areInside.1, items,
            ⟨Nat.succ.inj length, areInside.2⟩, rfl⟩

/-- The rows over some given values fit into a list. -/
theorem exists_space (given : List Value) (count : Nat) :
    ∃ space : List Value, ∀ row, IsRowOf (Within given) count row →
      row ∈ space := by
  have finite := (finite_within given).union
    ((finite_lists (finite_within given) count).image Value.tuple)
  refine ⟨finite.toFinset.toList, ?_⟩
  intro row isRow
  rw [Finset.mem_toList, Set.Finite.mem_toFinset]
  rcases isRow with isWithin | ⟨_, items, length, areWithin, isRow⟩
  · exact .inl isWithin
  · exact .inr ⟨items, ⟨length, areWithin⟩, isRow.symm⟩

end Value

/-- Variables with values among some names have been produced and stay inside a
class. -/
def Env.Draws (inside : Value → Prop) (produced names : List Name) (env : Env) :
    Prop :=
  ∀ name ∈ names, ∀ value, env.lookup name = some value → name ∈ produced ∧
    inside value

theorem Env.Draws.mono {inside : Value → Prop} {produced names more : List Name}
    {env : Env} (draws : env.Draws inside produced more)
    (subset : names ⊆ more) : env.Draws inside produced names :=
  fun name isName => draws name (subset isName)

/-- The values of the globals of a session. -/
def Session.globalValues (session : Session) : List Value :=
  session.globals.map Prod.snd

/-- Variables stay inside a universe with all globals. -/
theorem Session.inside_of_lookup {session : Session} {inside : Value → Prop}
    (isUniverse : Value.IsUniverse session.globalValues inside) {env : Env}
    {name : Name} (bound : ∀ value, env.lookup name = some value → inside value)
    (found : session.lookup env name = .ok value) : inside value := by
  rw [lookup] at found
  cases isBound : env.lookup name with
  | some other =>
      rw [isBound] at found
      cases found
      exact bound value isBound
  | none =>
      rw [isBound] at found
      dsimp only at found
      cases isGlobal : session.globals.lookup name with
      | some other =>
          rw [isGlobal] at found
          cases found
          exact isUniverse.given value
            (List.mem_map_of_mem (NameMap.mem_of_lookup isGlobal))
      | none =>
          rw [isGlobal] at found
          dsimp only at found
          cases isBuiltin : Builtin.ofName? name with
          | some builtin =>
              rw [isBuiltin] at found
              cases found
              exact isUniverse.atoms _ (.builtin builtin)
          | none =>
              rw [isBuiltin] at found
              cases found

theorem BinaryOp.isAtom_of_apply {op : BinaryOp} (notAppend : op ≠ .append)
    {left right : Value} (applied : op.apply left right = .ok value) :
    value.IsAtom := by
  have compared {condition : Ordering → Bool}
      (ordered : (left.order right >>= fun order =>
        pure (Value.bool (condition order))) = .ok value) : value.IsAtom := by
    obtain ⟨order, _, isBool⟩ := Outcome.bind_eq_ok_iff.mp ordered
    cases isBool
    exact .bool _
  have computed {operation : Int → Int → Int}
      (result : Value.arithmetic operation left right = .ok value) :
      value.IsAtom := by
    cases left with
    | int left =>
        cases right with
        | int right =>
            rw [Value.arithmetic, Value.ofInt] at result
            split at result
            · cases result
              exact .int _
            · cases result
        | _ => cases result
    | _ => cases result
  cases op with
  | eq | ne =>
      cases applied
      exact .bool _
  | lt | le | gt | ge => exact compared applied
  | member =>
      obtain ⟨found, _, isBool⟩ := Outcome.bind_eq_ok_iff.mp applied
      cases isBool
      exact .bool found
  | append => exact absurd rfl notAppend
  | add | sub => exact computed applied

namespace Expr

variable {item source : Expr} {site : Site} {env : Env}

/-- An expression that cannot be but a truth value or an integer. -/
inductive IsScalar : Expr → Prop where
  | andAlso (left right : Expr) : IsScalar (.andAlso left right)
  | orElse (left right : Expr) : IsScalar (.orElse left right)
  | existence (query : Query) : IsScalar (.existence query)
  | binary {op : BinaryOp} (left right : Expr) : op ≠ .append →
      IsScalar (.binary op left right)

/-- An item that is no new value, unless it is a truth value or an integer. -/
inductive Picks : Expr → Prop where
  | literal (value : Literal) : Picks (.literal value)
  | var (name : Name) : Picks (.var name)
  | scalar {item : Expr} : item.IsScalar → Picks item

/-- A source whose rows do not depend on what has been produced, or that selects
them among the values of variables. -/
inductive Selects (session : Session) (produced : List Name) : Expr → Prop where
  | fixed {source : Expr} : (∀ name ∈ source.freeVars, name ∉ produced) →
      (∀ kind rows, session.eval (Session.root 0) source =
        .ok (.collection kind rows) → ∀ row ∈ rows, row.isFunctionFree = true) →
      Selects session produced source
  | var (name : Name) : Selects session produced (.var name)
  | list {items : List Expr} : (∀ item ∈ items, item.Picks) →
      Selects session produced (.list items)
  | append {left right : Expr} : Selects session produced left →
      Selects session produced right →
      Selects session produced (.binary .append left right)
  | filtered {pattern : Pattern} {source : Expr} {conditions : List Expr} :
      Selects session produced source →
      Selects session produced
        (.collect ⟨[⟨pattern, some source⟩], conditions.map .filter⟩)

/-- Items stay inside each universe above some values, if their variables do. -/
def EvaluatesWithin (session : Session) (given : List Value) (item : Expr) :
    Prop :=
  ∀ inside, Value.IsUniverse (session.globalValues ++ given) inside →
    ∀ env site value,
    (∀ name ∈ item.freeVars, ∀ value, env.lookup name = some value →
      inside value) →
    session.evalIn site env item = .ok value → inside value

/-- Rows stay inside each universe above some values, if what has been produced
does. -/
def YieldsWithin (session : Session) (produced : List Name) (given : List Value)
    (source : Expr) : Prop :=
  ∀ inside, Value.IsUniverse (session.globalValues ++ given) inside →
    ∀ env site kind rows,
    env.Draws inside produced source.freeVars → Session.Started site →
    session.evalIn site env source = .ok (.collection kind rows) →
      ∀ row ∈ rows, inside row

variable {session : Session} {produced : List Name} {given more : List Value}

theorem EvaluatesWithin.mono (within : item.EvaluatesWithin session given)
    (subset : given ⊆ more) : item.EvaluatesWithin session more := by
  intro inside isUniverse
  exact within inside (isUniverse.mono_right subset)

theorem YieldsWithin.mono (within : source.YieldsWithin session produced given)
    (subset : given ⊆ more) : source.YieldsWithin session produced more := by
  intro inside isUniverse
  exact within inside (isUniverse.mono_right subset)

theorem IsScalar.isAtom (scalar : item.IsScalar)
    (evaluated : session.evalIn site env item = .ok value) : value.IsAtom := by
  cases scalar with
  | andAlso left right =>
      obtain ⟨_, _, evaluated⟩ := Outcome.bind_eq_ok_iff.mp evaluated
      obtain ⟨holds, _, evaluated⟩ := Outcome.bind_eq_ok_iff.mp evaluated
      cases holds with
      | false =>
          cases evaluated
          exact .bool false
      | true =>
          obtain ⟨_, _, evaluated⟩ := Outcome.bind_eq_ok_iff.mp evaluated
          obtain ⟨last, _, evaluated⟩ := Outcome.bind_eq_ok_iff.mp evaluated
          cases evaluated
          exact .bool last
  | orElse left right =>
      obtain ⟨_, _, evaluated⟩ := Outcome.bind_eq_ok_iff.mp evaluated
      obtain ⟨holds, _, evaluated⟩ := Outcome.bind_eq_ok_iff.mp evaluated
      cases holds with
      | false =>
          obtain ⟨_, _, evaluated⟩ := Outcome.bind_eq_ok_iff.mp evaluated
          obtain ⟨last, _, evaluated⟩ := Outcome.bind_eq_ok_iff.mp evaluated
          cases evaluated
          exact .bool last
      | true =>
          cases evaluated
          exact .bool true
  | existence query =>
      obtain ⟨scans, steps⟩ := query
      obtain ⟨found, _, evaluated⟩ := Outcome.bind_eq_ok_iff.mp evaluated
      cases evaluated
      exact .bool found
  | binary left right notAppend =>
      obtain ⟨_, _, evaluated⟩ := Outcome.bind_eq_ok_iff.mp evaluated
      obtain ⟨_, _, applied⟩ := Outcome.bind_eq_ok_iff.mp evaluated
      exact BinaryOp.isAtom_of_apply notAppend applied

theorem Picks.exists_evaluatesWithin (picks : item.Picks) :
    ∃ given, item.EvaluatesWithin session given := by
  cases picks with
  | literal literal =>
      refine ⟨[.ofLiteral literal], ?_⟩
      intro inside isUniverse env site value _ evaluated
      cases evaluated
      exact isUniverse.given _ (by simp)
  | var name =>
      refine ⟨[], ?_⟩
      intro inside isUniverse env site value bound evaluated
      exact Session.inside_of_lookup
        (isUniverse.mono (List.subset_append_left _ _))
        (bound name List.mem_cons_self) evaluated
  | scalar isScalar =>
      refine ⟨[], ?_⟩
      intro inside isUniverse env site value _ evaluated
      exact isUniverse.atoms value (isScalar.isAtom evaluated)

/-- The items of a list stay inside each universe above the values that they
need one by one. -/
theorem exists_yieldsWithin_list {items : List Expr}
    (picks : ∀ item ∈ items, item.Picks) :
    ∃ given, (Expr.list items).YieldsWithin session produced given := by
  suffices ∃ given, ∀ inside,
    Value.IsUniverse (session.globalValues ++ given) inside →
      ∀ env site values, env.Draws inside produced (freeVarsList items) →
      evalList session (session.call session.limits.maxDepth) env site items =
        .ok values →
      ∀ value ∈ values, inside value by
    obtain ⟨given, within⟩ := this
    refine ⟨given, ?_⟩
    intro inside isUniverse env site kind rows draws _ evaluated
    obtain ⟨values, evaluatedItems, isValue⟩ :=
      Outcome.bind_eq_ok_iff.mp evaluated
    cases isValue
    exact within inside isUniverse env site _ draws evaluatedItems
  induction items with
  | nil =>
      refine ⟨[], ?_⟩
      intro inside _ env site values _ evaluated
      cases evaluated
      exact List.forall_mem_nil _
  | cons item items induction =>
      rw [List.forall_mem_cons] at picks
      obtain ⟨own, ownWithin⟩ := picks.1.exists_evaluatesWithin
      obtain ⟨others, othersWithin⟩ := induction picks.2
      refine ⟨own ++ others, ?_⟩
      intro inside isUniverse env site values draws evaluated
      obtain ⟨first, evaluatedFirst, evaluated⟩ :=
        Outcome.bind_eq_ok_iff.mp evaluated
      obtain ⟨rest, evaluatedRest, isValues⟩ :=
        Outcome.bind_eq_ok_iff.mp evaluated
      cases isValues
      rw [List.forall_mem_cons]
      constructor
      · apply ownWithin.mono (List.subset_append_left own others) inside
          isUniverse env _ first _ evaluatedFirst
        intro name isFree value isBound
        exact (draws name (List.mem_append_left _ isFree) value isBound).2
      · exact othersWithin inside
          (isUniverse.mono_right (List.subset_append_right own others))
          env _ rest (draws.mono (List.subset_append_right _ _)) evaluatedRest

/-- The rows of a source that depends on nothing produced are given once and for
all. -/
theorem exists_yieldsWithin_fixed (uniform : session.Uniform)
    (closed : ∀ name ∈ source.freeVars, name ∉ produced)
    (rowsFree : ∀ kind rows, session.eval (Session.root 0) source =
      .ok (.collection kind rows) → ∀ row ∈ rows, row.isFunctionFree = true) :
    ∃ given, source.YieldsWithin session produced given := by
  have exists_rows : ∃ given : List Value, ∀ kind rows,
      session.eval (Session.root 0) source = .ok (.collection kind rows) →
        rows = given := by
    cases session.eval (Session.root 0) source with
    | error halt =>
        refine ⟨[], ?_⟩
        intro kind rows absurdity
        cases absurdity
    | ok value =>
        refine ⟨value.children, ?_⟩
        intro kind rows isValue
        cases isValue
        rfl
  obtain ⟨given, areGiven⟩ := exists_rows
  refine ⟨given, ?_⟩
  intro inside isUniverse env site kind rows draws started evaluated
  have unbound : ∀ name ∈ source.freeVars, env.lookup name = none := by
    intro name isFree
    cases bound : env.lookup name with
    | none => rfl
    | some value =>
        exact absurd (draws name isFree value bound).1 (closed name isFree)
  have evaluatedFirst : session.eval (Session.root 0) source =
    .ok (.collection kind rows) := by
    apply Session.rows_eq_of_free uniform started (.root 0) _ _ rowsFree
      evaluated
    · intro name isFree value bound
      rw [unbound name isFree] at bound
      cases bound
    · intro name isFree
      exact (unbound name isFree).symm
  rw [areGiven kind rows evaluatedFirst]
  intro row isGiven
  exact isUniverse.given row (List.mem_append_right _ isGiven)

/-- Conditions change no output. -/
theorem output_eq_of_filters {call : Caller} {output result : Value}
    {conditions : List Expr}
    (evaluated :
      evalSteps session call env site output (conditions.map .filter) =
      .ok (some result)) : result = output := by
  induction conditions generalizing site with
  | nil =>
      cases evaluated
      rfl
  | cons condition conditions induction =>
      obtain ⟨_, _, evaluated⟩ := Outcome.bind_eq_ok_iff.mp evaluated
      obtain ⟨holds, _, evaluated⟩ := Outcome.bind_eq_ok_iff.mp evaluated
      cases holds with
      | false => cases evaluated
      | true => exact induction evaluated

/-- The rows of a source that selects them stay inside each universe above some
values. -/
theorem Selects.exists_yieldsWithin (uniform : session.Uniform)
    (selects : source.Selects session produced) :
    ∃ given, source.YieldsWithin session produced given := by
  induction selects with
  | fixed closed rowsFree =>
      exact exists_yieldsWithin_fixed uniform closed rowsFree
  | var name =>
      refine ⟨[], ?_⟩
      intro inside isUniverse env site kind rows draws _ evaluated
      have isInside :=
        Session.inside_of_lookup (isUniverse.mono (List.subset_append_left _ _))
        (fun value bound => (draws name List.mem_cons_self value bound).2)
        evaluated
      exact isUniverse.children _ isInside
  | list picks => exact exists_yieldsWithin_list picks
  | append _ _ leftInduction rightInduction =>
      obtain ⟨lefts, leftWithin⟩ := leftInduction
      obtain ⟨rights, rightWithin⟩ := rightInduction
      refine ⟨lefts ++ rights, ?_⟩
      intro inside isUniverse env site kind rows draws started evaluated
      obtain ⟨left, evaluatedLeft, evaluated⟩ :=
        Outcome.bind_eq_ok_iff.mp evaluated
      obtain ⟨right, evaluatedRight, appended⟩ :=
        Outcome.bind_eq_ok_iff.mp evaluated
      cases left with
      | collection leftKind leftRows =>
          cases right with
          | collection rightKind rightRows =>
              cases appended
              rw [List.forall_mem_append]
              constructor
              · exact leftWithin.mono (List.subset_append_left _ _) inside
                  isUniverse env _ _ _
                  (draws.mono (List.subset_append_left _ _)) (started.cons 0)
                  evaluatedLeft
              · exact rightWithin.mono (List.subset_append_right _ _) inside
                  isUniverse env _ _ _
                  (draws.mono (List.subset_append_right _ _)) (started.cons 1)
                  evaluatedRight
          | _ => cases appended
      | _ => cases appended
  | filtered _ induction =>
      obtain ⟨given, within⟩ := induction
      refine ⟨given, ?_⟩
      intro inside isUniverse env site kind rows draws started evaluated
        row member
      obtain ⟨found, collected, isValue⟩ := Outcome.bind_eq_ok_iff.mp evaluated
      cases isValue
      obtain ⟨sourced, evaluatedSource, _, every⟩ :=
        mem_collectScans_cons collected
      obtain ⟨index, scanned, inner, part, isScanned, _, finished, inPart⟩ :=
        every row member
      obtain ⟨output, taken, isPart⟩ := collectScans_nil_eq_ok_iff.mp finished
      subst isPart
      rw [Option.mem_toList] at inPart
      rw [inPart] at taken
      obtain ⟨sourceKind, isSource⟩ :=
        Generator.exists_evalIn_of_evalSource evaluatedSource
      rw [output_eq_of_filters taken]
      exact within inside isUniverse env _ _ _
        (draws.mono (List.subset_append_left _ _))
        (started.cons 0) isSource scanned (List.mem_of_getElem? isScanned)

end Expr

end RecursiveQuery
