import RecursiveQuery.Proofs.PlainRows
import RecursiveQuery.Proofs.WiderLimits

/-!
# Evaluation without fixpoints

Only fixpoints can run out of rounds.  What mentions none and knows no function
that does concludes with a value or an error, and no bound on rounds makes a
difference.
-/

namespace RecursiveQuery

variable {env : Env}

/-- An evaluation concludes, with a value of which something holds or with an
error. -/
inductive Outcome.Concludes {α : Type} (holds : α → Prop) :
    Outcome α → Prop where
  | ok {value : α} : holds value → Concludes holds (.ok value)
  | failed (cause : EvalError) : Concludes holds (.fail cause)

namespace Outcome.Concludes

variable {α β : Type} {holds : α → Prop} {next : β → Prop}

theorem ne_outOfRounds {outcome : Outcome α}
    (concludes : Concludes holds outcome) : outcome ≠ .error .outOfRounds := by
  intro isCut
  subst isCut
  cases concludes

theorem of_ok {value : α} (concludes : Concludes holds (.ok value)) :
    holds value := by
  cases concludes with
  | ok isHeld => exact isHeld

theorem bind {outcome : Outcome α} {rest : α → Outcome β}
    (first : Concludes holds outcome)
    (later : ∀ value, holds value → Concludes next (rest value)) :
    Concludes next (outcome >>= rest) := by
  cases first with
  | ok isHeld => exact later _ isHeld
  | failed cause => exact .failed cause

theorem mapM {each : α → Outcome β} {items : List α}
    (concludes : ∀ item ∈ items, Concludes next (each item)) :
    Concludes (fun results => ∀ result ∈ results, next result)
      (items.mapM each) := by
  induction items with
  | nil => exact .ok (List.forall_mem_nil _)
  | cons item items induction =>
      rw [List.forall_mem_cons] at concludes
      rw [List.mapM_cons]
      refine concludes.1.bind fun result isHeld => ?_
      refine (induction concludes.2).bind fun results areHeld => ?_
      exact .ok (List.forall_mem_cons.mpr ⟨isHeld, areHeld⟩)

theorem anyM {each : α → Outcome Bool} {items : List α}
    (concludes : ∀ item ∈ items, Concludes (fun _ => True) (each item)) :
    Concludes (fun _ => True) (items.anyM each) := by
  induction items with
  | nil => exact .ok trivial
  | cons item items induction =>
      rw [List.forall_mem_cons] at concludes
      rw [List.anyM]
      refine concludes.1.bind fun holds _ => ?_
      cases holds with
      | true => exact .ok trivial
      | false => exact induction concludes.2

end Outcome.Concludes

open Outcome (Concludes)

/-- No name is that of a fixpoint function. -/
def Name.AreLoopFree (names : List Name) : Prop :=
  ∀ kind, (Builtin.iterate kind).name ∉ names

theorem Name.areLoopFree_append {names others : List Name} :
    AreLoopFree (names ++ others) ↔ AreLoopFree names ∧ AreLoopFree others := by
  simp only [AreLoopFree, List.mem_append, not_or, forall_and]

theorem Expr.areLoopFree_scans_cons {pattern : Pattern} {source : Option Expr}
    {scans : List Scan}
    (free : Name.AreLoopFree (allNamesScans (⟨pattern, source⟩ :: scans))) :
    (∀ expr, source = some expr → Name.AreLoopFree expr.allNames) ∧
      Name.AreLoopFree (allNamesScans scans) := by
  cases source with
  | none =>
      refine ⟨?_, (Name.areLoopFree_append.mp free).2⟩
      intro expr absurdity
      cases absurdity
  | some source =>
      obtain ⟨first, rest⟩ := Name.areLoopFree_append.mp free
      refine ⟨?_, rest⟩
      intro expr isSource
      cases isSource
      exact (Name.areLoopFree_append.mp first).2

/-- A value without functions that mention fixpoints. -/
inductive Value.IsLoopFree : Value → Prop where
  | unit : IsLoopFree .unit
  | bool (value : Bool) : IsLoopFree (.bool value)
  | int (value : Int64) : IsLoopFree (.int value)
  | str (value : String) : IsLoopFree (.str value)
  | tuple {items : List Value} : (∀ item ∈ items, IsLoopFree item) →
      IsLoopFree (.tuple items)
  | collection {kind : CollectionKind} {rows : List Value} :
      (∀ row ∈ rows, IsLoopFree row) → IsLoopFree (.collection kind rows)
  | closure {site : Site} {param : Pattern} {body : Expr}
      {env : List (Name × Value)} : Name.AreLoopFree body.allNames →
      (∀ name value, List.lookup name env = some value → IsLoopFree value) →
      IsLoopFree (.closure ⟨site, param, body, env⟩)
  | not : IsLoopFree (.builtin .not)

def Rows.IsLoopFree (rows : Rows) : Prop :=
  ∀ row ∈ rows.rows, row.IsLoopFree

/-- No variable has a value with functions that mention fixpoints. -/
def Env.IsLoopFree (env : Env) : Prop :=
  ∀ name value, env.lookup name = some value → value.IsLoopFree

theorem Env.isLoopFree_nil : Env.IsLoopFree [] := by
  intro name value absurdity
  cases absurdity

/-- Neither globals nor the extent have functions that mention fixpoints. -/
structure Session.IsLoopFree (session : Session) : Prop where
  globals : ∀ name value, session.globals.lookup name = some value →
    value.IsLoopFree
  extent : ∀ values, session.limits.extent = some values →
    ∀ value ∈ values, value.IsLoopFree

/-- Calls of functions that mention no fixpoints end. -/
def Caller.Concludes (call : Caller) : Prop :=
  ∀ target site argument, (Value.closure target).IsLoopFree →
    argument.IsLoopFree →
    Outcome.Concludes Value.IsLoopFree (call target site argument)

namespace Value

theorem IsLoopFree.of_tuple {items : List Value}
    (free : (Value.tuple items).IsLoopFree) :
    ∀ item ∈ items, item.IsLoopFree := by
  cases free with
  | tuple free => exact free

theorem IsLoopFree.of_collection {kind : CollectionKind} {rows : List Value}
    (free : (Value.collection kind rows).IsLoopFree) :
    ∀ row ∈ rows, row.IsLoopFree := by
  cases free with
  | collection free => exact free

theorem IsLoopFree.coerce {value : Value} (free : value.IsLoopFree)
    (type : Option Ty) : (value.coerce type).IsLoopFree := by
  unfold Value.coerce
  split
  · split
    · exact .collection free.of_collection
    · exact free
  · exact free

theorem isLoopFree_ofLiteral (value : Literal) :
    (ofLiteral value).IsLoopFree := by
  cases value with
  | unit => exact .unit
  | bool value => exact .bool value
  | int value => exact .int value
  | str value => exact .str value

theorem isLoopFree_ofScanned {scanned : List Value}
    (free : ∀ value ∈ scanned, value.IsLoopFree) :
    (ofScanned scanned).IsLoopFree := by
  match scanned with
  | [value] => exact free value List.mem_cons_self
  | [] => exact .tuple free
  | _ :: _ :: _ => exact .tuple free

mutual

theorem isLoopFree_of_isFunctionFree {value : Value}
    (free : value.isFunctionFree = true) : value.IsLoopFree := by
  cases value with
  | unit => exact .unit
  | bool value => exact .bool value
  | int value => exact .int value
  | str value => exact .str value
  | tuple items => exact .tuple (areLoopFree_of_areFunctionFree free)
  | collection kind rows =>
      exact .collection (areLoopFree_of_areFunctionFree free)
  | closure target => cases free
  | builtin function => cases free
  | iterateOn kind base => cases free

theorem areLoopFree_of_areFunctionFree {items : List Value}
    (free : areFunctionFree items = true) :
    ∀ item ∈ items, item.IsLoopFree := by
  cases items with
  | nil => exact List.forall_mem_nil _
  | cons item items =>
      obtain ⟨first, rest⟩ := Bool.and_eq_true_iff.mp free
      exact List.forall_mem_cons.mpr
        ⟨isLoopFree_of_isFunctionFree first,
          areLoopFree_of_areFunctionFree rest⟩

end

theorem asBool_concludes (value : Value) :
    Concludes (fun _ => True) value.asBool := by
  cases value with
  | bool value => exact .ok trivial
  | _ => exact .failed _

theorem order_concludes (left right : Value) :
    Concludes (fun _ => True) (left.order right) := by
  cases left with
  | int left =>
      cases right with
      | int right => exact .ok trivial
      | _ => exact .failed _
  | str left =>
      cases right with
      | str right => exact .ok trivial
      | _ => exact .failed _
  | _ => exact .failed _

theorem ofInt_concludes (value : Int) : Concludes IsLoopFree (ofInt value) := by
  rw [ofInt]
  split
  · exact .ok (.int _)
  · exact .failed _

theorem arithmetic_concludes (operation : Int → Int → Int)
    (left right : Value) :
    Concludes IsLoopFree (arithmetic operation left right) := by
  cases left with
  | int left =>
      cases right with
      | int right => exact ofInt_concludes _
      | _ => exact .failed _
  | _ => exact .failed _

theorem append_concludes {left right : Value} (leftFree : left.IsLoopFree)
    (rightFree : right.IsLoopFree) :
    Concludes IsLoopFree (left.append right) := by
  cases left with
  | collection leftKind leftRows =>
      cases right with
      | collection rightKind rightRows =>
          exact .ok (.collection (List.forall_mem_append.mpr
            ⟨leftFree.of_collection, rightFree.of_collection⟩))
      | _ => exact .failed _
  | _ => exact .failed _

theorem memberOf_concludes (row value : Value) :
    Concludes (fun _ => True) (row.memberOf value) := by
  cases value with
  | collection kind rows => exact .ok trivial
  | _ => exact .failed _

/-- Without fixpoints an application is a call, or a negation. -/
theorem apply_concludes {call : Caller} (calls : call.Concludes)
    {function argument : Value} (functionFree : function.IsLoopFree)
    (argumentFree : argument.IsLoopFree) (rounds : Nat) (site : Site) :
    Concludes IsLoopFree (function.apply call rounds site argument) := by
  cases functionFree with
  | closure body env =>
      exact calls _ site argument (.closure body env) argumentFree
  | not =>
      cases argument with
      | bool value => exact .ok (.bool _)
      | _ => exact .failed _
  | _ => exact .failed _

end Value

theorem BinaryOp.apply_concludes (op : BinaryOp) {left right : Value}
    (leftFree : left.IsLoopFree) (rightFree : right.IsLoopFree) :
    Concludes Value.IsLoopFree (op.apply left right) := by
  cases op with
  | eq | ne => exact .ok (.bool _)
  | lt | le | gt | ge =>
      exact (left.order_concludes right).bind fun _ _ => .ok (.bool _)
  | member =>
      exact (left.memberOf_concludes right).bind fun _ _ => .ok (.bool _)
  | append => exact Value.append_concludes leftFree rightFree
  | add | sub => exact Value.arithmetic_concludes _ left right

namespace Pattern

mutual

theorem extentRows_concludes {extent : Option (List Value)}
    (free : ∀ values, extent = some values → ∀ value ∈ values, value.IsLoopFree)
    (pattern : Pattern) :
    Concludes (fun rows => ∀ row ∈ rows, row.IsLoopFree)
      (pattern.extentRows extent) := by
  cases pattern with
  | literal value =>
      apply Concludes.ok
      intro row member
      rw [List.mem_singleton.mp member]
      exact Value.isLoopFree_ofLiteral value
  | tuple patterns =>
      refine (extentColumns_concludes free patterns).bind
        fun columns columnsFree => ?_
      apply Concludes.ok
      intro row member
      obtain ⟨items, isColumn, isRow⟩ := List.mem_map.mp member
      rw [← isRow]
      exact .tuple (columnsFree items isColumn)
  | wildcard | var name =>
      cases extent with
      | some values => exact .ok (free values rfl)
      | none => exact .failed _

theorem extentColumns_concludes {extent : Option (List Value)}
    (free : ∀ values, extent = some values → ∀ value ∈ values, value.IsLoopFree)
    (patterns : List Pattern) :
    Concludes (fun columns => ∀ items ∈ columns, ∀ item ∈ items,
      item.IsLoopFree) (extentColumns extent patterns) := by
  cases patterns with
  | nil =>
      apply Concludes.ok
      intro items member
      rw [List.mem_singleton.mp member]
      exact List.forall_mem_nil _
  | cons pattern patterns =>
      refine (extentRows_concludes free pattern).bind
        fun column columnFree => ?_
      refine (extentColumns_concludes free patterns).bind
        fun rest restFree => ?_
      apply Concludes.ok
      intro items member
      obtain ⟨value, isValue, inRest⟩ := List.mem_flatMap.mp member
      obtain ⟨others, isOther, isItems⟩ := List.mem_map.mp inRest
      rw [← isItems]
      exact List.forall_mem_cons.mpr
        ⟨columnFree value isValue, restFree others isOther⟩

end

theorem isLoopFree_of_bind {pattern : Pattern} {value : Value} {inner : Env}
    (valueFree : value.IsLoopFree) (envFree : env.IsLoopFree)
    (binds : pattern.bind value env = some inner) : inner.IsLoopFree := by
  intro name found lookedUp
  by_cases occurs : name ∈ pattern.occurrences
  · exact holds_of_bind (fun _ free => free.of_tuple) valueFree binds occurs
      lookedUp
  · rw [lookup_of_bind binds occurs] at lookedUp
    exact envFree name found lookedUp

end Pattern

namespace Session

theorem IsLoopFree.lookup_concludes {session : Session}
    (free : session.IsLoopFree) (envFree : env.IsLoopFree) {name : Name}
    (nameFree : Name.AreLoopFree [name]) :
    Concludes Value.IsLoopFree (session.lookup env name) := by
  rw [lookup]
  cases bound : env.lookup name with
  | some value => exact .ok (envFree name value bound)
  | none =>
      dsimp only
      cases declared : session.globals.lookup name with
      | some value => exact .ok (free.globals name value declared)
      | none =>
          dsimp only
          cases found : Builtin.ofName? name with
          | none => exact .failed _
          | some builtin =>
              have isNamed := List.find?_some found
              cases builtin with
              | not => exact .ok .not
              | iterate kind =>
                  exact absurd (beq_iff_eq.mp isNamed)
                    (by simpa using nameFree kind)

end Session

namespace Expr

variable {session : Session} {call : Caller}
variable {env : Env} {site : Site} {pattern : Pattern}

theorem evalSource_concludes_of {source : Expr}
    (concludes :
      Concludes Value.IsLoopFree (eval session call env site source)) :
    Concludes Rows.IsLoopFree
      (evalSource session call env site pattern (some source)) := by
  refine concludes.bind fun value valueFree => ?_
  cases valueFree with
  | collection rowsFree => exact .ok rowsFree
  | _ => exact .failed _

/-- Scans conclude, if the source of the first one does and the others do for
each row. -/
theorem collectScans_cons_concludes {source : Option Expr} {scans : List Scan}
    {finish : Env → Site → List Value → Outcome (Option Value)}
    (envFree : env.IsLoopFree) {scanned : List Value}
    (first : Concludes Rows.IsLoopFree
      (evalSource session call env (0 :: site) pattern source))
    (rest : ∀ index row inner, row.IsLoopFree → inner.IsLoopFree →
      Concludes Rows.IsLoopFree
      (collectScans session call finish inner ((index + 1) :: site)
        (scanned ++ [row]) scans)) :
    Concludes Rows.IsLoopFree
      (collectScans session call finish env site scanned
        (⟨pattern, source⟩ :: scans)) := by
  refine first.bind fun rows rowsFree => ?_
  have below : ∀ entry ∈ pattern.matching env rows.rows,
    Concludes Rows.IsLoopFree
      (collectScans session call finish entry.2.2 ((entry.1 + 1) :: site)
        (scanned ++ [entry.2.1]) scans) := by
    intro entry matched
    obtain ⟨index, row, inner⟩ := entry
    obtain ⟨found, binds⟩ := Pattern.mem_matching_iff.mp matched
    have rowFree := rowsFree row (List.mem_of_getElem? found)
    exact rest index row inner rowFree
      (Pattern.isLoopFree_of_bind rowFree envFree binds)
  refine (Concludes.mapM below).bind fun parts partsFree => ?_
  apply Concludes.ok
  intro row member
  obtain ⟨part, isPart, inPart⟩ := Rows.mem_below_iff.mp member
  exact partsFree part isPart row inPart

mutual

/-- Evaluation concludes rule by rule, if calls do. -/
theorem eval_concludes (free : session.IsLoopFree) (calls : call.Concludes)
    {expr : Expr} (exprFree : Name.AreLoopFree expr.allNames) {env : Env}
    (envFree : env.IsLoopFree) (site : Site) :
    Concludes Value.IsLoopFree (eval session call env site expr) := by
  cases expr with
  | literal value => exact .ok (Value.isLoopFree_ofLiteral value)
  | var name => exact free.lookup_concludes envFree exprFree
  | tuple items =>
      exact (evalList_concludes free calls exprFree envFree site).bind
        fun _ itemsFree =>
        .ok (.tuple itemsFree)
  | list items =>
      exact (evalList_concludes free calls exprFree envFree site).bind
        fun _ itemsFree =>
        .ok (.collection itemsFree)
  | apply function argument =>
      obtain ⟨functionFree, argumentFree⟩ := Name.areLoopFree_append.mp exprFree
      refine (eval_concludes free calls functionFree envFree _).bind
        fun _ functionFree => ?_
      refine (eval_concludes free calls argumentFree envFree _).bind
        fun _ argumentFree => ?_
      exact Value.apply_concludes calls functionFree argumentFree _ _
  | lambda param body =>
      exact .ok (.closure (Name.areLoopFree_append.mp exprFree).2 envFree)
  | andAlso left right =>
      obtain ⟨leftFree, rightFree⟩ := Name.areLoopFree_append.mp exprFree
      refine (eval_concludes free calls leftFree envFree _).bind
        fun value _ => ?_
      refine value.asBool_concludes.bind fun holds _ => ?_
      cases holds with
      | false => exact .ok (.bool _)
      | true =>
          refine (eval_concludes free calls rightFree envFree _).bind
            fun value _ => ?_
          exact value.asBool_concludes.bind fun _ _ => .ok (.bool _)
  | orElse left right =>
      obtain ⟨leftFree, rightFree⟩ := Name.areLoopFree_append.mp exprFree
      refine (eval_concludes free calls leftFree envFree _).bind
        fun value _ => ?_
      refine value.asBool_concludes.bind fun holds _ => ?_
      cases holds with
      | false =>
          refine (eval_concludes free calls rightFree envFree _).bind
            fun value _ => ?_
          exact value.asBool_concludes.bind fun _ _ => .ok (.bool _)
      | true => exact .ok (.bool _)
  | binary op left right =>
      obtain ⟨leftFree, rightFree⟩ := Name.areLoopFree_append.mp exprFree
      refine (eval_concludes free calls leftFree envFree _).bind
        fun _ leftFree => ?_
      refine (eval_concludes free calls rightFree envFree _).bind
        fun _ rightFree => ?_
      exact op.apply_concludes leftFree rightFree
  | collect query =>
      obtain ⟨scans, steps⟩ := query
      obtain ⟨scansFree, stepsFree⟩ := Name.areLoopFree_append.mp exprFree
      refine (scans_conclude free calls scansFree ?_ envFree site
        (List.forall_mem_nil _)).1.bind fun _ rowsFree =>
        .ok (.collection rowsFree)
      intro inner place scanned innerFree scannedFree
      exact evalSteps_concludes free calls stepsFree innerFree place
        (Value.isLoopFree_ofScanned scannedFree)
  | existence query =>
      obtain ⟨scans, steps⟩ := query
      obtain ⟨scansFree, stepsFree⟩ := Name.areLoopFree_append.mp exprFree
      refine (scans_conclude free calls scansFree ?_ envFree site
        (List.forall_mem_nil _)).2.bind fun _ _ => .ok (.bool _)
      intro inner place scanned innerFree scannedFree
      exact evalSteps_concludes free calls stepsFree innerFree place
        (Value.isLoopFree_ofScanned scannedFree)

theorem evalList_concludes (free : session.IsLoopFree) (calls : call.Concludes)
    {items : List Expr} (itemsFree : Name.AreLoopFree (allNamesList items))
    {env : Env} (envFree : env.IsLoopFree) (site : Site) :
    Concludes (fun values => ∀ value ∈ values, value.IsLoopFree)
      (evalList session call env site items) := by
  cases items with
  | nil => exact .ok (List.forall_mem_nil _)
  | cons item items =>
      obtain ⟨first, rest⟩ := Name.areLoopFree_append.mp itemsFree
      refine (eval_concludes free calls first envFree _).bind
        fun _ valueFree => ?_
      refine (evalList_concludes free calls rest envFree _).bind
        fun _ valuesFree => ?_
      exact .ok (List.forall_mem_cons.mpr ⟨valueFree, valuesFree⟩)

theorem evalSteps_concludes (free : session.IsLoopFree) (calls : call.Concludes)
    {steps : List Step} (stepsFree : Name.AreLoopFree (allNamesSteps steps))
    {env : Env} (envFree : env.IsLoopFree) (site : Site) {output : Value}
    (outputFree : output.IsLoopFree) :
    Concludes (fun result => ∀ value ∈ result, value.IsLoopFree)
      (evalSteps session call env site output steps) := by
  match steps with
  | [] =>
      apply Concludes.ok
      intro value isOutput
      cases isOutput
      exact outputFree
  | .filter condition :: steps =>
      obtain ⟨first, rest⟩ := Name.areLoopFree_append.mp stepsFree
      refine (eval_concludes free calls first envFree _).bind fun value _ => ?_
      refine value.asBool_concludes.bind fun holds _ => ?_
      cases holds with
      | false =>
          apply Concludes.ok
          intro value absurdity
          cases absurdity
      | true => exact evalSteps_concludes free calls rest envFree _ outputFree
  | .yield value :: steps =>
      obtain ⟨first, rest⟩ := Name.areLoopFree_append.mp stepsFree
      refine (eval_concludes free calls first envFree _).bind
        fun _ newFree => ?_
      exact evalSteps_concludes free calls rest envFree _ newFree

theorem evalSource_concludes (free : session.IsLoopFree)
    (calls : call.Concludes) {source : Option Expr}
    (sourceFree : ∀ expr, source = some expr → Name.AreLoopFree expr.allNames)
    {env : Env} (envFree : env.IsLoopFree) (site : Site) (pattern : Pattern) :
    Concludes Rows.IsLoopFree
      (evalSource session call env site pattern source) := by
  match source with
  | none =>
      exact (pattern.extentRows_concludes free.extent).bind fun _ rowsFree =>
        .ok rowsFree
  | some expr =>
      exact evalSource_concludes_of
        (eval_concludes free calls (sourceFree expr rfl) envFree site)

theorem scans_conclude (free : session.IsLoopFree) (calls : call.Concludes)
    {scans : List Scan} (scansFree : Name.AreLoopFree (allNamesScans scans))
    {finish : Env → Site → List Value → Outcome (Option Value)}
    (finishes : ∀ env site scanned, env.IsLoopFree →
      (∀ value ∈ scanned, value.IsLoopFree) →
      Concludes (fun result => ∀ value ∈ result, value.IsLoopFree)
        (finish env site scanned))
    {env : Env} (envFree : env.IsLoopFree) (site : Site) {scanned : List Value}
    (scannedFree : ∀ value ∈ scanned, value.IsLoopFree) :
    Concludes Rows.IsLoopFree
        (collectScans session call finish env site scanned scans) ∧
      Concludes (fun _ => True)
        (existsScans session call finish env site scanned scans) := by
  match scans with
  | [] =>
      have finished := finishes env site scanned envFree scannedFree
      refine ⟨finished.bind fun result resultFree => ?_,
        finished.bind fun _ _ => .ok trivial⟩
      apply Concludes.ok
      intro row member
      exact resultFree row (Option.mem_toList.mp member)
  | ⟨pattern, source⟩ :: scans =>
      obtain ⟨sourceFree, restFree⟩ := areLoopFree_scans_cons scansFree
      have sources :=
        evalSource_concludes free calls sourceFree envFree (0 :: site) pattern
      have rest index {row inner} (rowFree : Value.IsLoopFree row)
          (innerFree : Env.IsLoopFree inner) :=
        scans_conclude free calls restFree finishes innerFree (index :: site)
          (List.forall_mem_append.mpr
            ⟨scannedFree, List.forall_mem_singleton.mpr rowFree⟩)
      constructor
      · refine collectScans_cons_concludes envFree sources ?_
        intro index row inner rowFree innerFree
        exact (rest _ rowFree innerFree).1
      · refine sources.bind fun rows rowsFree => ?_
        apply Concludes.anyM
        intro entry matched
        obtain ⟨index, row, inner⟩ := entry
        obtain ⟨found, binds⟩ := Pattern.mem_matching_iff.mp matched
        have rowFree := rowsFree row (List.mem_of_getElem? found)
        exact
          (rest _ rowFree (Pattern.isLoopFree_of_bind rowFree envFree binds)).2

end

end Expr

namespace Session

variable {session : Session}

/-- Calls conclude, by induction on the depth that is left. -/
theorem IsLoopFree.call_concludes (free : session.IsLoopFree) (left : Nat) :
    Caller.Concludes (session.call left) := by
  induction left with
  | zero =>
      intro target site argument _ _
      exact .failed _
  | succ left induction =>
      intro target site argument targetFree argumentFree
      cases targetFree with
      | closure bodyFree envFree =>
          rw [call]
          dsimp only
          split
          · exact .failed _
          · next inner binds =>
              have innerFree :=
                Pattern.isLoopFree_of_bind argumentFree envFree binds
              exact Expr.eval_concludes free induction bodyFree innerFree site

theorem IsLoopFree.evalIn_concludes (free : session.IsLoopFree) {expr : Expr}
    (exprFree : Name.AreLoopFree expr.allNames) (envFree : env.IsLoopFree)
    (site : Site) : Concludes Value.IsLoopFree (session.evalIn site env expr) :=
  Expr.eval_concludes free (free.call_concludes _) exprFree envFree site

/-- The same session with another bound on rounds. -/
def withRounds (session : Session) (rounds : Nat) : Session :=
  { session with limits := { session.limits with rounds := rounds } }

theorem IsLoopFree.withRounds (free : session.IsLoopFree) (rounds : Nat) :
    (session.withRounds rounds).IsLoopFree :=
  ⟨free.globals, free.extent⟩

/-- What mentions no fixpoints is the same under all bounds on rounds. -/
theorem IsLoopFree.evalIn_withRounds (free : session.IsLoopFree) {expr : Expr}
    (exprFree : Name.AreLoopFree expr.allNames) (envFree : env.IsLoopFree)
    (site : Site) (rounds : Nat) :
    (session.withRounds rounds).evalIn site env expr =
    session.evalIn site env expr := by
  have kept {narrow wide : Session} (narrowFree : narrow.IsLoopFree)
      (widen : Widen (· = .outOfRounds) narrow wide) :
      wide.evalIn site env expr = narrow.evalIn site env expr := by
    apply (evalIn_persists widen site env expr).eq_of_not_cut
    intro halt isCut isHalted
    subst isCut
    exact (narrowFree.evalIn_concludes exprFree envFree site).ne_outOfRounds
      isHalted
  rcases Nat.le_total rounds session.limits.rounds with fewer | more
  · have widen : Widen (· = .outOfRounds) (session.withRounds rounds) session :=
      ⟨rfl, rfl, .inl rfl, .inl rfl, fewer, rfl⟩
    exact (kept (free.withRounds rounds) widen).symm
  · have widen : Widen (· = .outOfRounds) session (session.withRounds rounds) :=
      ⟨rfl, rfl, .inl rfl, .inl rfl, more, rfl⟩
    exact kept free widen

namespace IsLoopFree

theorem define (free : session.IsLoopFree) (name : Name) {value : Value}
    (valueFree : value.IsLoopFree) :
    (session.define name value).IsLoopFree := by
  refine ⟨?_, free.extent⟩
  intro other found isGlobal
  rw [Session.define, NameMap.lookup_insert] at isGlobal
  split at isGlobal
  · cases isGlobal
    exact valueFree
  · exact free.globals other found isGlobal

theorem defineFunction (free : session.IsLoopFree) {name : Name}
    {param : Pattern} {body : Expr}
    (declFree : Name.AreLoopFree (Decl.function name param body).names)
    (site : Site) :
    (session.define name (.closure ⟨site, param, body, []⟩)).IsLoopFree := by
  apply free.define
  apply Value.IsLoopFree.closure
  · intro kind member
    exact declFree kind (by simp [Decl.names, member])
  · intro name value absurdity
    cases absurdity

theorem declare (free : session.IsLoopFree) (name : Name) (type : Option Ty) :
    (session.declare name type).IsLoopFree := by
  refine ⟨?_, ?_⟩
  · rw [globals_declare]
    exact free.globals
  · rw [limits_declare]
    exact free.extent

theorem erase (free : session.IsLoopFree) (name : Name) :
    IsLoopFree { session with globals := session.globals.erase name } := by
  refine ⟨?_, free.extent⟩
  intro other found isGlobal
  rw [NameMap.lookup_erase] at isGlobal
  split at isGlobal
  · cases isGlobal
  · exact free.globals other found isGlobal

theorem defineFunctions (free : session.IsLoopFree) {decls : List Decl}
    (declsFree : ∀ decl ∈ decls, Name.AreLoopFree decl.names) (site : Site) :
    (session.defineFunctions decls site).IsLoopFree := by
  induction decls generalizing session site with
  | nil => exact free
  | cons decl decls induction =>
      rw [List.forall_mem_cons] at declsFree
      cases decl with
      | val name type value => exact induction free declsFree.2 _
      | function name param body =>
          exact induction (free.defineFunction declsFree.1 _) declsFree.2 _

end IsLoopFree

theorem declare_withRounds (name : Name) (type : Option Ty) (rounds : Nat) :
    (session.withRounds rounds).declare name type =
      (session.declare name type).withRounds rounds := by
  cases type <;> rfl

theorem defineFunctions_withRounds (decls : List Decl) (site : Site)
    (rounds : Nat) : (session.withRounds rounds).defineFunctions decls site =
      (session.defineFunctions decls site).withRounds rounds := by
  induction decls generalizing session site with
  | nil => rfl
  | cons decl decls induction =>
      cases decl with
      | val name type value => exact induction _
      | function name param body =>
          exact @induction
            (session.define name (.closure ⟨0 :: site, param, body, []⟩)) _

/-- Declarations that mention no fixpoints take effect under all bounds on
rounds. -/
theorem IsLoopFree.runDecls (free : session.IsLoopFree) {decls : List Decl}
    (declsFree : ∀ decl ∈ decls, Name.AreLoopFree decl.names) {site : Site}
    {final : Session} (ran : session.runDecls decls site = .ok final)
    (rounds : Nat) : final.IsLoopFree ∧
      (session.withRounds rounds).runDecls decls site =
        .ok (final.withRounds rounds) := by
  induction decls generalizing session site with
  | nil =>
      cases ran
      exact ⟨free, rfl⟩
  | cons decl decls induction =>
      rw [List.forall_mem_cons] at declsFree
      match decl with
      | .function name param body =>
          have defined :=
            (free.declare name none).defineFunction declsFree.1 (0 :: site)
          exact induction defined declsFree.2 ran
      | .val name type none =>
          have erased := (free.declare name type).erase name
          rw [Session.runDecls, declare_withRounds]
          exact induction erased declsFree.2 ran
      | .val name type (some value) =>
          have declared := free.declare name type
          have valueFree : Name.AreLoopFree value.allNames := by
            intro kind member
            exact declsFree.1 kind (by simp [Decl.names, member])
          obtain ⟨result, evaluated, rest⟩ := Outcome.bind_eq_ok_iff.mp ran
          have concludes :=
            declared.evalIn_concludes valueFree Env.isLoopFree_nil (0 :: site)
          have same := declared.evalIn_withRounds valueFree Env.isLoopFree_nil
            (0 :: site) rounds
          have evaluated : (session.declare name type).evalIn (0 :: site) []
            value = .ok result :=
            evaluated
          rw [evaluated] at concludes same
          have defined := declared.define name (concludes.of_ok.coerce type)
          obtain ⟨finalFree, ranAgain⟩ := induction defined declsFree.2 rest
          refine ⟨finalFree, ?_⟩
          rw [Session.runDecls, declare_withRounds]
          exact Outcome.bind_eq_ok_iff.mpr ⟨result, same, ranAgain⟩

/-- A program that mentions no fixpoints is loaded in the same way under all
bounds on rounds. -/
theorem load_withRounds {program : Program} {limits : Limits}
    (free : Name.AreLoopFree program.names)
    (extent : ∀ values, limits.extent = some values →
      ∀ value ∈ values, value.IsLoopFree)
    (loaded : load program limits = .ok session) (rounds : Nat) :
    session.IsLoopFree ∧
      load program { limits with rounds := rounds } =
        .ok (session.withRounds rounds) := by
  have declsFree : ∀ decl ∈ program.decls, Name.AreLoopFree decl.names := by
    intro decl isDecl kind member
    exact free kind (List.mem_flatMap.mpr ⟨decl, isDecl, member⟩)
  have start : (empty limits).IsLoopFree := by
    refine ⟨?_, extent⟩
    intro name value absurdity
    cases absurdity
  obtain ⟨sessionFree, ran⟩ :=
    (start.defineFunctions declsFree [0, 0]).runDecls declsFree loaded rounds
  rw [← defineFunctions_withRounds] at ran
  exact ⟨sessionFree, ran⟩

end Session

end RecursiveQuery
