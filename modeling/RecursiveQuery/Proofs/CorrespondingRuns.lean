import RecursiveQuery.Proofs.Correspondence
import RecursiveQuery.Proofs.Load

/-!
# Corresponding evaluations

An expression and an instance of it evaluate to corresponding values, at
different sites and among different variables, or neither of them does, if what
the free variables of the expression stand for has corresponding values.  In
particular a value without functions depends on nothing else.
-/

namespace RecursiveQuery

open Outcome (Agree Follows)
open Value (Corresponds)

/-- All sites inside one evaluation are paired with those inside another. -/
def SitesBelow (sites : Site → Site → Prop) (site site' : Site) : Prop :=
  ∀ path : Site, sites (path ++ site) (path ++ site')

theorem SitesBelow.cons {sites : Site → Site → Prop} {site site' : Site}
    (below : SitesBelow sites site site') (step : Nat) :
    SitesBelow sites (step :: site) (step :: site') := by
  intro path
  have inside := below (path ++ [step])
  rwa [List.append_assoc, List.append_assoc] at inside

/-- Corresponding closures are called with corresponding results. -/
def Caller.Agrees (sites : Site → Site → Prop) (call : Caller) : Prop :=
  ∀ {target target' : Closure} {site site' : Site} {argument argument' : Value},
    Corresponds sites (.closure target) (.closure target') →
      SitesBelow sites site site' →
    Corresponds sites argument argument' →
    Outcome.Agree (Corresponds sites) (call target site argument)
      (call target' site' argument')

/-- What evaluations share corresponds to itself. -/
structure Session.Respects (sites : Site → Site → Prop) (session : Session) :
    Prop where
  unique : Relator.BiUnique sites
  globals : ∀ name value, session.globals.lookup name = some value →
    Corresponds sites value value
  extent : ∀ values, session.limits.extent = some values →
    ∀ value ∈ values, Corresponds sites value value

namespace Value

variable {sites : Site → Site → Prop} {left left' right right' : Value}

theorem asBool_agree (pair : Corresponds sites left left') :
    Agree Eq left.asBool left'.asBool := by
  cases pair with
  | bool value => exact .refl _
  | _ => exact .halted

theorem order_agree (leftPair : Corresponds sites left left')
    (rightPair : Corresponds sites right right') :
    Agree Eq (left.order right) (left'.order right') := by
  cases leftPair with
  | int value =>
      cases rightPair with
      | int other => exact .refl _
      | _ => exact .halted
  | str value =>
      cases rightPair with
      | str other => exact .refl _
      | _ => exact .halted
  | _ => exact .halted

theorem memberOf_agree (unique : Relator.BiUnique sites)
    (leftPair : Corresponds sites left left')
    (rightPair : Corresponds sites right right') :
    Agree Eq (left.memberOf right) (left'.memberOf right') := by
  cases rightPair with
  | collection kind rows =>
      rw [memberOf, memberOf,
        (Corresponds.keepsEquality unique).any_same rows leftPair]
      exact .refl _
  | _ => exact .halted

theorem append_agree (leftPair : Corresponds sites left left')
    (rightPair : Corresponds sites right right') :
    Agree (Corresponds sites) (left.append right) (left'.append right') := by
  cases leftPair with
  | collection kind rows =>
      cases rightPair with
      | collection other others =>
          exact .ok (.collection _ (List.rel_append rows others))
      | _ => exact .halted
  | _ => exact .halted

theorem arithmetic_agree (operation : Int → Int → Int)
    (leftPair : Corresponds sites left left')
    (rightPair : Corresponds sites right right') :
    Agree (Corresponds sites) (arithmetic operation left right)
      (arithmetic operation left' right') := by
  cases leftPair with
  | int value =>
      cases rightPair with
      | int other =>
          rw [arithmetic, ofInt]
          split
          · exact .ok (.int _)
          · exact .halted
      | _ => exact .halted
  | _ => exact .halted

section Application

variable {call : Caller} {rounds : Nat} {site site' : Site}
variable {function' argument' : Value}

theorem iterate_agree (unique : Relator.BiUnique sites)
    {step step' : Site → Value → Outcome Value}
    (steps : ∀ {site site' rows rows'}, SitesBelow sites site site' →
      Corresponds sites rows rows' →
      Agree (Corresponds sites) (step site rows) (step' site' rows'))
    (kind : CollectionKind) {base base' : Value}
    (pair : Corresponds sites base base')
    (below : SitesBelow sites site site') :
    Agree (Corresponds sites) (iterate rounds step kind base site)
      (iterate rounds step' kind base' site') := by
  cases pair with
  | collection baseKind rows =>
      rw [iterate, iterate]
      split
      · refine (fixpoint_follows (Corresponds.keepsEquality unique) (.inr rfl)
          ?_ rows).bind fun _ _ results => .ok (.collection kind results)
        intro round found found' increment increment' foundPairs newPairs
        refine
          (steps (below.cons round) (.tuple (.cons (.collection kind foundPairs)
          (.cons (.collection kind newPairs) .nil)))).bind
          fun result result' resultPair => ?_
        cases resultPair with
        | collection _ resultRows => exact .ok resultRows
        | _ => exact .halted
      · exact .halted
  | _ => exact .halted

theorem applyUsing_agree (unique : Relator.BiUnique sites)
    (calls : call.Agrees sites) {step : Value → Site → Value → Outcome Value}
    (steps : ∀ {function function' site site' rows rows'},
      Corresponds sites function function' → SitesBelow sites site site' →
      Corresponds sites rows rows' →
      Agree (Corresponds sites) (step function site rows)
        (step function' site' rows'))
    {function argument : Value}
    (functionPair : Corresponds sites function function')
    (below : SitesBelow sites site site')
    (argumentPair : Corresponds sites argument argument') :
    Agree (Corresponds sites)
      (applyUsing call rounds step function site argument)
      (applyUsing call rounds step function' site' argument') := by
  cases functionPair with
  | closure target instanced values unbound =>
      exact calls (.closure target instanced values unbound) below argumentPair
  | builtin function =>
      cases function with
      | not =>
          cases argumentPair with
          | bool value => exact .ok (.bool _)
          | _ => exact .halted
      | iterate kind => exact .ok (.iterateOn kind argumentPair)
  | iterateOn kind base =>
      exact iterate_agree unique
        (fun below rows => steps argumentPair below rows) kind base below
  | _ => exact .halted

theorem apply_agree (unique : Relator.BiUnique sites)
    (calls : call.Agrees sites) {function argument : Value}
    (functionPair : Corresponds sites function function')
    (below : SitesBelow sites site site')
    (argumentPair : Corresponds sites argument argument') :
    Agree (Corresponds sites) (apply call rounds function site argument)
      (apply call rounds function' site' argument') := by
  refine applyUsing_agree unique calls ?_ functionPair below argumentPair
  intro step step' inside inside' rows rows' stepPair insideBelow rowPairs
  exact applyUsing_agree unique calls (fun _ _ _ => .halted) stepPair
    insideBelow rowPairs

end Application

theorem ofScanned_corresponds {scanned scanned' : List Value}
    (pairs : List.Forall₂ (Corresponds sites) scanned scanned') :
    Corresponds sites (ofScanned scanned) (ofScanned scanned') := by
  cases pairs with
  | nil => exact .tuple .nil
  | cons first rest =>
      cases rest with
      | nil => exact first
      | cons second rest => exact .tuple (.cons first (.cons second rest))

end Value

theorem BinaryOp.apply_agree {sites : Site → Site → Prop}
    (unique : Relator.BiUnique sites) (op : BinaryOp)
    {left left' right right' : Value} (leftPair : Corresponds sites left left')
    (rightPair : Corresponds sites right right') :
    Agree (Corresponds sites) (op.apply left right)
      (op.apply left' right') := by
  have comparison (test : Ordering → Bool) :
      Agree (Corresponds sites) (do return .bool (test (← left.order right)))
        (do return .bool (test (← left'.order right'))) :=
    (Value.order_agree leftPair rightPair).andThen fun _ => .ok (.bool _)
  cases op with
  | eq | ne =>
      rw [BinaryOp.apply, BinaryOp.apply,
        Corresponds.same_eq unique leftPair rightPair]
      exact .ok (.bool _)
  | lt => exact comparison Ordering.isLT
  | le => exact comparison Ordering.isLE
  | gt => exact comparison Ordering.isGT
  | ge => exact comparison Ordering.isGE
  | member =>
      exact (Value.memberOf_agree unique leftPair rightPair).andThen fun _ =>
        .ok (.bool _)
  | append => exact Value.append_agree leftPair rightPair
  | add | sub => exact Value.arithmetic_agree _ leftPair rightPair

namespace Pattern

variable {sites : Site → Site → Prop} {extent : Option (List Value)}

mutual

/-- The names of variables do not matter for the values they range over. -/
theorem extentRows_agree
    (shared : ∀ values, extent = some values →
      ∀ value ∈ values, Corresponds sites value value)
    (pattern : Pattern) (change : Name → Name) :
    Agree (List.Forall₂ (Corresponds sites)) (extentRows extent pattern)
      (extentRows extent (pattern.rename change)) := by
  have values : Agree (List.Forall₂ (Corresponds sites))
      (extentRows extent .wildcard) (extentRows extent .wildcard) := by
    cases extent with
    | none => exact .halted
    | some values => exact .ok (List.forall₂_same.mpr (shared values rfl))
  cases pattern with
  | literal value => exact .ok (.cons (.ofLiteral value) .nil)
  | tuple patterns =>
      refine (extentColumns_agree shared patterns change).bind
        fun columns columns' pairs =>
        .ok ?_
      rw [List.forall₂_map_left_iff, List.forall₂_map_right_iff]
      exact pairs.imp fun _ _ items => .tuple items
  | wildcard => exact values
  | var name =>
      cases extent with
      | none => exact .halted
      | some rows => exact values

theorem extentColumns_agree
    (shared : ∀ values, extent = some values →
      ∀ value ∈ values, Corresponds sites value value)
    (patterns : List Pattern) (change : Name → Name) :
    Agree (List.Forall₂ (List.Forall₂ (Corresponds sites)))
      (extentColumns extent patterns)
      (extentColumns extent (renameList change patterns)) := by
  cases patterns with
  | nil => exact .ok (.cons .nil .nil)
  | cons pattern patterns =>
      refine (extentRows_agree shared pattern change).bind
        fun column column' columnPairs => ?_
      refine (extentColumns_agree shared patterns change).bind
        fun rest rest' restPairs => .ok ?_
      refine List.rel_flatMap columnPairs fun value value' pair => ?_
      exact List.rel_map (fun _ _ items => .cons pair items) restPairs

end

end Pattern

/-- Corresponding rows of a comprehension. -/
def Rows.Correspond (sites : Site → Site → Prop) (rows rows' : Rows) : Prop :=
  rows.kind = rows'.kind ∧ List.Forall₂ (Corresponds sites) rows.rows rows'.rows

theorem Rows.below_correspond {sites : Site → Site → Prop}
    (kind : CollectionKind) {parts parts' : List Rows}
    (pairs : List.Forall₂ (Rows.Correspond sites) parts parts') :
    Rows.Correspond sites (below kind parts) (below kind parts') := by
  constructor
  · change parts.foldl _ kind = parts'.foldl _ kind
    induction pairs generalizing kind with
    | nil => rfl
    | cons pair _ induction =>
        rw [List.foldl_cons, List.foldl_cons, pair.1, induction]
  · exact List.rel_flatMap pairs fun _ _ pair => pair.2

theorem Session.lookup_agree {sites : Site → Site → Prop} {session : Session}
    {call : Caller} (respects : session.Respects sites) {meant : Name → Expr}
    {env env' : Env} {name : Name} (site : Site)
    (pair : Option.Rel (Corresponds sites) (env.lookup name)
      ((meant name).valueIn env'))
    (unbound : env.lookup name = none → meant name = .var name) :
    Agree (Corresponds sites) (session.lookup env name)
      ((meant name).eval session call env' site) := by
  rw [lookup]
  generalize env.lookup name = found at pair unbound
  generalize isRead : (meant name).valueIn env' = found' at pair
  cases pair with
  | some pair =>
      rw [Expr.eval_of_valueIn isRead]
      exact .ok pair
  | none =>
      have absent : env'.lookup name = none := by
        rw [unbound rfl] at isRead
        exact isRead
      rw [unbound rfl, Expr.eval, lookup, absent]
      dsimp only
      split
      · next value isGlobal => exact .ok (respects.globals name value isGlobal)
      · split
        · exact .ok (.builtin _)
        · exact .halted

namespace Expr

variable {sites : Site → Site → Prop} {session : Session} {call : Caller}

mutual

/-- Evaluation goes on side by side rule by rule, if calls do. -/
theorem eval_agree (respects : session.Respects sites)
    (calls : call.Agrees sites) {expr expr' : Expr} {meant : Name → Expr}
    (instanced : expr.Instance meant expr') {env env' : Env} {site site' : Site}
    (below : SitesBelow sites site site')
    (pairs : Env.Means sites meant expr.freeVars env env') :
    Agree (Corresponds sites) (eval session call env site expr)
      (eval session call env' site' expr') := by
  cases expr with
  | literal value =>
      cases instanced
      exact .ok (.ofLiteral value)
  | var name =>
      cases instanced
      exact Session.lookup_agree respects site'
        (pairs.values name List.mem_cons_self)
        (pairs.unbound name List.mem_cons_self)
  | tuple items =>
      obtain ⟨items', rfl, instanced⟩ := instanced
      exact (evalList_agree respects calls instanced below pairs).bind
        fun _ _ values =>
        .ok (.tuple values)
  | list items =>
      obtain ⟨items', rfl, instanced⟩ := instanced
      exact (evalList_agree respects calls instanced below pairs).bind
        fun _ _ values =>
        .ok (.collection .list values)
  | apply function argument =>
      obtain ⟨function', argument', rfl, functionInstance, argumentInstance⟩ :=
        instanced
      have functionPairs := pairs.mono (List.subset_append_left _ _)
      have argumentPairs := pairs.mono (List.subset_append_right _ _)
      refine (eval_agree respects calls functionInstance (below.cons 0)
        functionPairs).bind fun _ _ functionPair => ?_
      refine (eval_agree respects calls argumentInstance (below.cons 1)
        argumentPairs).bind fun _ _ argumentPair => ?_
      exact Value.apply_agree respects.unique calls functionPair (below.cons 2)
        argumentPair
  | lambda param body =>
      obtain ⟨change, body', rfl, inner⟩ := instanced
      exact .ok (.closure (below []) ⟨change, body', rfl, inner⟩ pairs.values
        pairs.unbound)
  | andAlso left right =>
      obtain ⟨left', right', rfl, leftInstance, rightInstance⟩ := instanced
      have leftPairs := pairs.mono (List.subset_append_left _ _)
      have rightPairs := pairs.mono (List.subset_append_right _ _)
      refine (eval_agree respects calls leftInstance (below.cons 0)
        leftPairs).bind fun _ _ value => ?_
      refine (Value.asBool_agree value).andThen fun holds => ?_
      cases holds with
      | false => exact .ok (.bool false)
      | true =>
          refine (eval_agree respects calls rightInstance (below.cons 1)
            rightPairs).bind fun _ _ value => ?_
          exact (Value.asBool_agree value).andThen fun _ => .ok (.bool _)
  | orElse left right =>
      obtain ⟨left', right', rfl, leftInstance, rightInstance⟩ := instanced
      have leftPairs := pairs.mono (List.subset_append_left _ _)
      have rightPairs := pairs.mono (List.subset_append_right _ _)
      refine (eval_agree respects calls leftInstance (below.cons 0)
        leftPairs).bind fun _ _ value => ?_
      refine (Value.asBool_agree value).andThen fun holds => ?_
      cases holds with
      | true => exact .ok (.bool true)
      | false =>
          refine (eval_agree respects calls rightInstance (below.cons 1)
            rightPairs).bind fun _ _ value => ?_
          exact (Value.asBool_agree value).andThen fun _ => .ok (.bool _)
  | binary op left right =>
      obtain ⟨left', right', rfl, leftInstance, rightInstance⟩ := instanced
      have leftPairs := pairs.mono (List.subset_append_left _ _)
      have rightPairs := pairs.mono (List.subset_append_right _ _)
      refine (eval_agree respects calls leftInstance (below.cons 0)
        leftPairs).bind fun _ _ leftPair => ?_
      refine (eval_agree respects calls rightInstance (below.cons 1)
        rightPairs).bind fun _ _ rightPair => ?_
      exact BinaryOp.apply_agree respects.unique op leftPair rightPair
  | collect query =>
      obtain ⟨scans, steps⟩ := query
      rw [Instance] at instanced
      obtain ⟨⟨scans', steps'⟩, rfl, instanced⟩ := instanced
      rw [InstanceQuery] at instanced
      obtain ⟨inner, scansInstance, stepsInstance⟩ := instanced
      dsimp only at scansInstance stepsInstance
      refine (scans_agree respects calls scansInstance ?_ below .nil
        pairs).1.bind fun found found' rows => ?_
      · intro env env' site site' scanned scanned' innerPairs inside values
        exact evalSteps_agree respects calls stepsInstance inside innerPairs
          (Value.ofScanned_corresponds values)
      · obtain ⟨kind, rows⟩ := rows
        rw [kind]
        exact .ok (.collection _ rows)
  | existence query =>
      obtain ⟨scans, steps⟩ := query
      rw [Instance] at instanced
      obtain ⟨⟨scans', steps'⟩, rfl, instanced⟩ := instanced
      rw [InstanceQuery] at instanced
      obtain ⟨inner, scansInstance, stepsInstance⟩ := instanced
      dsimp only at scansInstance stepsInstance
      refine (scans_agree respects calls scansInstance ?_ below .nil
        pairs).2.andThen fun _ => .ok (.bool _)
      intro env env' site site' scanned scanned' innerPairs inside values
      exact evalSteps_agree respects calls stepsInstance inside innerPairs
        (Value.ofScanned_corresponds values)
termination_by structural expr

theorem evalList_agree (respects : session.Respects sites)
    (calls : call.Agrees sites) {items items' : List Expr} {meant : Name → Expr}
    (instanced : InstanceList meant items items') {env env' : Env}
    {site site' : Site} (below : SitesBelow sites site site')
    (pairs : Env.Means sites meant (freeVarsList items) env env') :
    Agree (List.Forall₂ (Corresponds sites))
      (evalList session call env site items)
      (evalList session call env' site' items') := by
  cases items with
  | nil =>
      cases instanced
      exact .ok .nil
  | cons item items =>
      obtain ⟨item', items', rfl, itemInstance, restInstance⟩ := instanced
      have itemPairs := pairs.mono (List.subset_append_left _ _)
      have restPairs := pairs.mono (List.subset_append_right _ _)
      refine
        (eval_agree respects calls itemInstance (below.cons 0) itemPairs).bind
        fun _ _ value => ?_
      refine (evalList_agree respects calls restInstance (below.cons 1)
        restPairs).bind fun _ _ values => ?_
      exact .ok (.cons value values)
termination_by structural items

theorem evalSteps_agree (respects : session.Respects sites)
    (calls : call.Agrees sites) {steps steps' : List Step} {meant : Name → Expr}
    (instanced : InstanceSteps meant steps steps') {env env' : Env}
    {site site' : Site} {output output' : Value}
    (below : SitesBelow sites site site')
    (pairs : Env.Means sites meant (freeVarsSteps steps) env env')
    (outputPair : Corresponds sites output output') :
    Agree (Option.Rel (Corresponds sites))
      (evalSteps session call env site output steps)
      (evalSteps session call env' site' output' steps') := by
  match steps with
  | [] =>
      cases instanced
      exact .ok (.some outputPair)
  | .filter condition :: steps =>
      rw [InstanceSteps] at instanced
      obtain ⟨condition', steps', rfl, conditionInstance, restInstance⟩ :=
        instanced
      have conditionPairs := pairs.mono (List.subset_append_left _ _)
      have restPairs := pairs.mono (List.subset_append_right _ _)
      refine (eval_agree respects calls conditionInstance (below.cons 0)
        conditionPairs).bind fun _ _ value => ?_
      refine (Value.asBool_agree value).andThen fun holds => ?_
      cases holds with
      | false => exact .ok .none
      | true =>
          exact evalSteps_agree respects calls restInstance (below.cons 1)
            restPairs outputPair
  | .yield value :: steps =>
      rw [InstanceSteps] at instanced
      obtain ⟨value', steps', rfl, valueInstance, restInstance⟩ := instanced
      have valuePairs := pairs.mono (List.subset_append_left _ _)
      have restPairs := pairs.mono (List.subset_append_right _ _)
      refine
        (eval_agree respects calls valueInstance (below.cons 0) valuePairs).bind
        fun _ _ newPair => ?_
      exact evalSteps_agree respects calls restInstance (below.cons 1)
        restPairs newPair
termination_by structural steps

theorem evalSource_agree (respects : session.Respects sites)
    (calls : call.Agrees sites) {source source' : Option Expr}
    {meant : Name → Expr} (instanced : InstanceSource meant source source')
    {env env' : Env} {site site' : Site} (pattern : Pattern)
    (change : Name → Name) (below : SitesBelow sites site site')
    (pairs : Env.Means sites meant (freeVarsSource source) env env') :
    Agree (Rows.Correspond sites)
      (evalSource session call env site pattern source)
      (evalSource session call env' site' (pattern.rename change) source') := by
  match source with
  | none =>
      cases instanced
      exact (Pattern.extentRows_agree respects.extent pattern change).bind
        fun _ _ rows =>
        .ok ⟨rfl, rows⟩
  | some source =>
      obtain ⟨source', rfl, instanced⟩ := instanced
      refine (eval_agree respects calls instanced below pairs).bind
        fun value value' pair => ?_
      cases pair with
      | collection kind rows => exact .ok ⟨rfl, rows⟩
      | _ => exact .halted
termination_by structural source

/-- Rows of scans are collected, and looked for, side by side. -/
theorem scans_agree (respects : session.Respects sites)
    (calls : call.Agrees sites)
    {scans scans' : List Scan} {meant inner : Name → Expr} {body : List Name}
    (instanced : InstanceScans meant body scans scans' inner)
    {finish finish' : Env → Site → List Value → Outcome (Option Value)}
    (finishes : ∀ {env env' site site' scanned scanned'},
      Env.Means sites inner body env env' → SitesBelow sites site site' →
      List.Forall₂ (Corresponds sites) scanned scanned' →
      Agree (Option.Rel (Corresponds sites)) (finish env site scanned)
        (finish' env' site' scanned'))
    {env env' : Env} {site site' : Site} {scanned scanned' : List Value}
    (below : SitesBelow sites site site')
    (values : List.Forall₂ (Corresponds sites) scanned scanned')
    (pairs : Env.Means sites meant (freeVarsScans scans body) env env') :
    Agree (Rows.Correspond sites)
        (collectScans session call finish env site scanned scans)
        (collectScans session call finish' env' site' scanned' scans') ∧
      Agree Eq (existsScans session call finish env site scanned scans)
        (existsScans session call finish' env' site' scanned' scans') := by
  match scans with
  | [] =>
      obtain ⟨rfl, rfl⟩ := instanced
      constructor
      · refine (finishes pairs below values).bind fun output output' pair => ?_
        cases pair with
        | none => exact .ok ⟨rfl, .nil⟩
        | some pair => exact .ok ⟨rfl, .cons pair .nil⟩
      · refine (finishes pairs below values).bind fun output output' pair => ?_
        cases pair with
        | none | some pair => exact .ok rfl
  | ⟨pattern, source⟩ :: scans =>
      rw [InstanceScans] at instanced
      obtain ⟨change, source', scans', rfl, sourceInstance, avoids,
        restInstance⟩ := instanced
      rw [freeVarsScans_cons] at pairs
      have sources := evalSource_agree respects calls sourceInstance pattern
        change (below.cons 0) (pairs.mono (List.subset_append_left _ _))
      have innerPairs := pairs.mono (List.subset_append_right _ _)
      have rest {index row row' env env'} (rowPair : Corresponds sites row row')
          (entryPairs : Env.Means sites (pattern.entered meant change)
            (freeVarsScans scans body) env env') :=
        scans_agree respects calls restInstance finishes
          (below.cons (index + 1))
          (List.rel_append values (.cons rowPair .nil)) entryPairs
      constructor
      · refine sources.bind fun rows rows' rowPairs => ?_
        have entries :=
          Pattern.matching_correspond respects.unique avoids rowPairs.2
            innerPairs
        rw [rowPairs.1]
        refine (Follows.mapM entries ?_).bind fun parts parts' partPairs =>
          .ok (Rows.below_correspond _ partPairs)
        rintro ⟨index, row, env⟩ ⟨_, row', env'⟩ ⟨rfl, rowPair, entryPairs⟩
        exact (rest rowPair entryPairs).1
      · refine sources.bind fun rows rows' rowPairs => ?_
        refine Follows.anyM
          (Pattern.matching_correspond respects.unique avoids rowPairs.2
            innerPairs) ?_
        rintro ⟨index, row, env⟩ ⟨_, row', env'⟩ ⟨rfl, rowPair, entryPairs⟩
        exact (rest rowPair entryPairs).2
termination_by structural scans

end

end Expr

namespace Session

variable {sites : Site → Site → Prop} {session : Session}
variable {env : Env} {site : Site}

/-- Calls go on side by side, by induction on the depth that is left. -/
theorem call_agree (respects : session.Respects sites) (left : Nat) :
    (session.call left).Agrees sites := by
  induction left with
  | zero =>
      intro target target' site site' argument argument' _ _ _
      exact .halted
  | succ left induction =>
      intro target target' site site' argument argument' targetPair below
        argumentPair
      cases targetPair with
      | @closure _ _ param _ body _ env env' _ _ instanced values unbound =>
          obtain ⟨change, body', same, avoids, instanced⟩ := instanced
          cases same
          have bound :=
            Pattern.bind_correspond respects.unique avoids argumentPair
            ⟨values, unbound⟩
          rw [call, call]
          dsimp only
          generalize param.bind argument env = outcome at bound
          generalize (param.rename change).bind argument' env' =
            outcome' at bound
          cases bound with
          | none => exact .halted
          | some pairs =>
              exact Expr.eval_agree respects induction instanced below pairs

theorem evalIn_instance_agree (respects : session.Respects sites)
    {expr expr' : Expr} {meant : Name → Expr}
    (instanced : expr.Instance meant expr') {env' : Env} {site' : Site}
    (below : SitesBelow sites site site')
    (pairs : Env.Means sites meant expr.freeVars env env') :
    Agree (Corresponds sites) (session.evalIn site env expr)
      (session.evalIn site' env' expr') :=
  Expr.eval_agree respects (call_agree respects _) instanced below pairs

theorem evalIn_agree (respects : session.Respects sites) (expr : Expr)
    {env' : Env} {site' : Site} (below : SitesBelow sites site site')
    (pairs : Env.CorrespondOn sites expr.freeVars env env') :
    Agree (Corresponds sites) (session.evalIn site env expr)
      (session.evalIn site' env' expr) :=
  evalIn_instance_agree respects expr.instance_refl below pairs.means

/-- One evaluation corresponds to itself. -/
theorem corresponds_of_evalIn (respects : session.Respects sites) {expr : Expr}
    {value : Value} (below : SitesBelow sites site site)
    (pairs : Env.CorrespondOn sites expr.freeVars env env)
    (evaluated : session.evalIn site env expr = .ok value) :
    Corresponds sites value value := by
  have agree := evalIn_agree respects expr below pairs
  rw [evaluated] at agree
  obtain ⟨other, equality, pair⟩ := agree.exists_ok
  cases equality
  exact pair

namespace Respects

theorem define (respects : session.Respects sites) {value : Value} (name : Name)
    (pair : Corresponds sites value value) :
    (session.define name value).Respects sites := by
  refine ⟨respects.unique, ?_, respects.extent⟩
  intro other found isGlobal
  rw [Session.define, NameMap.lookup_insert] at isGlobal
  split at isGlobal
  · cases isGlobal
    exact pair
  · exact respects.globals other found isGlobal

theorem declare (respects : session.Respects sites) (name : Name)
    (type : Option Ty) : (session.declare name type).Respects sites := by
  refine ⟨respects.unique, ?_, ?_⟩
  · rw [globals_declare]
    exact respects.globals
  · rw [limits_declare]
    exact respects.extent

theorem erase (respects : session.Respects sites) (name : Name) :
    Respects sites { session with globals := session.globals.erase name } := by
  refine ⟨respects.unique, ?_, respects.extent⟩
  intro other found isGlobal
  rw [NameMap.lookup_erase] at isGlobal
  split at isGlobal
  · cases isGlobal
  · exact respects.globals other found isGlobal

theorem defineFunction (respects : session.Respects sites) (name : Name)
    (param : Pattern) (body : Expr) (below : SitesBelow sites site site) :
    (session.define name (.closure ⟨0 :: site, param, body, []⟩)).Respects
    sites :=
  respects.define name
    (.closure (below.cons 0 []) (Expr.instance_refl _) (fun _ _ => .none)
    fun _ _ _ => rfl)

theorem defineFunctions (respects : session.Respects sites) (decls : List Decl)
    {site : Site} (below : SitesBelow sites site site) :
    (session.defineFunctions decls site).Respects sites := by
  induction decls generalizing session site with
  | nil => exact respects
  | cons decl decls induction =>
      cases decl with
      | val name type value => exact induction respects (below.cons 1)
      | function name param body =>
          exact induction (respects.defineFunction name param body below)
            (below.cons 1)

theorem runDecls (respects : session.Respects sites) {decls : List Decl}
    {site : Site} {final : Session} (below : SitesBelow sites site site)
    (ran : session.runDecls decls site = .ok final) : final.Respects sites := by
  induction decls generalizing session site with
  | nil =>
      cases ran
      exact respects
  | cons decl decls induction =>
      cases decl with
      | function name param body =>
          exact induction
            ((respects.declare name none).defineFunction name param body below)
            (below.cons 1) ran
      | val name type value =>
          have declared := respects.declare name type
          cases value with
          | none => exact induction (declared.erase name) (below.cons 1) ran
          | some value =>
              obtain ⟨result, evaluated, rest⟩ := Outcome.bind_eq_ok_iff.mp ran
              have pair : Corresponds sites result result :=
                corresponds_of_evalIn declared (below.cons 0) (fun _ _ => .none)
                  evaluated
              exact induction (declared.define name (pair.coerce type))
                (below.cons 1) rest

end Respects

/-- The functions of a loaded program were made while it was loaded. -/
theorem respects_of_load {program : Program} {limits : Limits}
    (unique : Relator.BiUnique sites)
    (loading : ∀ site : Site, site.getLast? = some 0 → sites site site)
    (extent : ∀ values, limits.extent = some values → ∀ value ∈ values,
      Corresponds sites value value)
    (loaded : load program limits = .ok session) : session.Respects sites := by
  have start : (empty limits).Respects sites := ⟨unique, nofun, extent⟩
  have below (number : Nat) : SitesBelow sites [number, 0] [number, 0] := by
    intro path
    exact loading _ (by simp)
  exact (start.defineFunctions program.decls (below 0)).runDecls
    (below 1) loaded

/-- A site inside an evaluation that a user starts. -/
def Started (site : Site) : Prop :=
  ∃ (path : Site) (number : Nat), site = path ++ root number

theorem Started.root (number : Nat) : Started (root number) :=
  ⟨[], number, rfl⟩

theorem Started.cons {site : Site} (started : Started site) (step : Nat) :
    Started (step :: site) := by
  obtain ⟨path, number, equality⟩ := started
  exact ⟨step :: path, number, by rw [equality, List.cons_append]⟩

/-- Nothing inside such an evaluation was made by loading. -/
theorem Started.getLast? (started : Started site) (path : Site) :
    (path ++ site).getLast? ≠ some 0 := by
  obtain ⟨inside, number, equality⟩ := started
  simp [equality, Session.root, ← List.append_assoc]

/-- Sites inside two evaluations of a loaded program: what was made by loading
is shared. -/
def Across (first second : Site) (site site' : Site) : Prop :=
  (site = site' ∧ site.getLast? = some 0) ∨
    ∃ path : Site, site = path ++ first ∧ site' = path ++ second

namespace Across

variable {first second : Site}

theorem below : SitesBelow (Across first second) first second :=
  fun path => .inr ⟨path, rfl, rfl⟩

theorem biUnique (startedFirst : Started first)
    (startedSecond : Started second) :
    Relator.BiUnique (Across first second) := by
  constructor
  · intro left left' right leftPair rightPair
    rcases leftPair with ⟨same, made⟩ | ⟨path, leftSite, rightSite⟩
    · rcases rightPair with ⟨same', _⟩ | ⟨path', _, rightSite⟩
      · exact same.trans same'.symm
      · rw [same, rightSite] at made
        exact absurd made (startedSecond.getLast? path')
    · rcases rightPair with ⟨same', made⟩ | ⟨path', leftSite', rightSite'⟩
      · rw [same', rightSite] at made
        exact absurd made (startedSecond.getLast? path)
      · rw [rightSite] at rightSite'
        rw [leftSite, leftSite', List.append_cancel_right rightSite']
  · intro left right right' leftPair rightPair
    rcases leftPair with ⟨same, made⟩ | ⟨path, leftSite, rightSite⟩
    · rcases rightPair with ⟨same', _⟩ | ⟨path', leftSite, _⟩
      · exact same.symm.trans same'
      · rw [leftSite] at made
        exact absurd made (startedFirst.getLast? path')
    · rcases rightPair with ⟨same', made⟩ | ⟨path', leftSite', rightSite'⟩
      · rw [leftSite] at made
        exact absurd made (startedFirst.getLast? path)
      · rw [leftSite] at leftSite'
        rw [rightSite, rightSite', List.append_cancel_right leftSite']

end Across

/-- A session in which evaluations that are started at different sites cannot be
told apart. -/
def Uniform (session : Session) : Prop :=
  ∀ {first second : Site}, Started first → Started second →
    session.Respects (Across first second)

theorem uniform_of_load {program : Program} {limits : Limits}
    (extent : ∀ values, limits.extent = some values → ∀ value ∈ values,
      value.isFunctionFree = true)
    (loaded : load program limits = .ok session) : session.Uniform :=
  fun startedFirst startedSecond => respects_of_load
    (Across.biUnique startedFirst startedSecond)
    (fun _ made => .inl ⟨rfl, made⟩)
    (fun values isExtent value member =>
      .of_isFunctionFree (extent values isExtent value member))
    loaded

end Session

end RecursiveQuery
