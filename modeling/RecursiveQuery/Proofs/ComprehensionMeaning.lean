import RecursiveQuery.Expr.Shape
import RecursiveQuery.Proofs.Comprehension

/-!
# The meaning of comprehensions

A comprehension means a nested list comprehension: each scan in turn ranges over
the rows of its source, or over the extent, that match its pattern, the steps
filter what is scanned, and the last output counts, or else what was scanned.
In this meaning an evaluation that fails offers nothing, so that there are
neither errors nor an end of the search.  Of the evaluator it shares only the
values of expressions.  Where the evaluation of a comprehension returns, its
rows are those of the meaning, and looking for one row agrees with listing all
of them.
-/

namespace RecursiveQuery

namespace Outcome

/-- Whether an evaluation returns true. -/
def isTrue : Outcome Value → Bool
  | .ok (.bool value) => value
  | _ => false

end Outcome

namespace Pattern

mutual

/-- Whether a value has the form of a pattern. -/
def accepts : Pattern → Value → Bool
  | wildcard, _ => true
  | var _, _ => true
  | literal expected, value => (Value.ofLiteral expected).same value
  | tuple patterns, .tuple values => acceptsList patterns values
  | tuple _, _ => false

def acceptsList : List Pattern → List Value → Bool
  | [], [] => true
  | pattern :: patterns, value :: values =>
      accepts pattern value && acceptsList patterns values
  | _, _ => false

end

mutual

/-- The parts of a value at the variables of a pattern, the last one first. -/
def bindings : Pattern → Value → Env
  | var name, value => [(name, value)]
  | tuple patterns, .tuple values => bindingsList patterns values
  | _, _ => []

def bindingsList : List Pattern → List Value → Env
  | pattern :: patterns, value :: values =>
      bindingsList patterns values ++ bindings pattern value
  | _, _ => []

end

/-- All ways to take one value of each column, where the first column changes
last. -/
def product : List (List Value) → List (List Value)
  | [] => [[]]
  | column :: columns =>
      column.flatMap fun value => (product columns).map (value :: ·)

mutual

/-- The values of the form of a pattern whose variables and wildcards range over
the extent. -/
def enumeration (extent : List Value) : Pattern → List Value
  | wildcard => extent
  | var _ => extent
  | literal value => [.ofLiteral value]
  | tuple patterns => (product (columns extent patterns)).map .tuple

def columns (extent : List Value) : List Pattern → List (List Value)
  | [] => []
  | pattern :: patterns =>
      enumeration extent pattern :: columns extent patterns

end

end Pattern

namespace Query

/-- A way through the scans of a comprehension: the variables in scope behind
them, its site, and the scanned values in the order of the scans. -/
structure Branch where
  env : Env
  site : Site
  scanned : List Value

/-- The row of a branch without an output: the value of a single scan, or the
values of all scans. -/
def Branch.row (branch : Branch) : Value :=
  match branch.scanned with
  | [value] => value
  | values => .tuple values

variable (session : Session) (call : Caller)

/-- The rows of a source, or the enumeration of the pattern. -/
def candidates (env : Env) (site : Site) (pattern : Pattern) :
    Option Expr → List Value
  | none => pattern.enumeration (session.limits.extent.getD [])
  | some source =>
      match source.eval session call env site with
      | .ok (.collection _ rows) => rows
      | _ => []

/-- The ways through some scans, where each scan is evaluated among the
variables of those before it. -/
def branches (env : Env) (site : Site) : List Scan → List Branch
  | [] => [⟨env, site, []⟩]
  | ⟨pattern, source⟩ :: scans =>
      let rows := candidates session call env (0 :: site) pattern source
      let kept := rows.zipIdx.filter fun (row, _) => pattern.accepts row
      kept.flatMap fun (row, index) =>
        (branches (pattern.bindings row ++ env) ((index + 1) :: site) scans).map
          fun branch => { branch with scanned := row :: branch.scanned }

/-- Whether all filters among some steps are true. -/
def passes (env : Env) (site : Site) : List Step → Bool
  | [] => true
  | .filter condition :: steps =>
      (condition.eval session call env (0 :: site)).isTrue &&
        passes env (1 :: site) steps
  | .yield _ :: steps => passes env (1 :: site) steps

/-- What some steps output, in order. -/
def outputs (env : Env) (site : Site) : List Step → List Value
  | [] => []
  | .filter _ :: steps => outputs env (1 :: site) steps
  | .yield value :: steps =>
      (value.eval session call env (0 :: site)).toOption.toList ++
        outputs env (1 :: site) steps

/-- The row of a branch that passes the steps: the last output, or what was
scanned if there is none. -/
def row? (steps : List Step) (branch : Branch) : Option Value :=
  if passes session call branch.env branch.site steps then
    some ((outputs session call branch.env branch.site steps).getLast?.getD
      branch.row)
  else none

/-- The rows of a comprehension in order. -/
def meaning (env : Env) (site : Site) (query : Query) : List Value :=
  (branches session call env site query.scans).filterMap
    (row? session call query.steps)

end Query

namespace Pattern

mutual

theorem bind_eq (pattern : Pattern) (value : Value) (env : Env) :
    pattern.bind value env =
      if pattern.accepts value then some (pattern.bindings value ++ env)
      else none := by
  cases pattern with
  | wildcard | var name | literal expected => rfl
  | tuple patterns =>
      cases value with
      | tuple values => exact bindList_eq patterns values env
      | _ => rfl

theorem bindList_eq (patterns : List Pattern) (values : List Value)
    (env : Env) : bindList patterns values env =
      if acceptsList patterns values then
        some (bindingsList patterns values ++ env)
      else none := by
  match patterns, values with
  | [], [] => rfl
  | [], _ :: _ => rfl
  | _ :: _, [] => rfl
  | pattern :: patterns, value :: values =>
      rw [bindList, bind_eq pattern value env, acceptsList, bindingsList]
      cases pattern.accepts value with
      | false => rfl
      | true =>
          rw [List.append_assoc]
          exact bindList_eq patterns values _

end

theorem matching_eq (pattern : Pattern) (env : Env) (rows : List Value) :
    pattern.matching env rows =
      (rows.zipIdx.filter fun (row, _) => pattern.accepts row).map
        fun (row, index) => (index, row, pattern.bindings row ++ env) := by
  rw [matching]
  induction rows.zipIdx with
  | nil => rfl
  | cons numbered rest induction =>
      obtain ⟨row, index⟩ := numbered
      rw [List.filterMap_cons, List.filter_cons, induction]
      dsimp only
      rw [bind_eq]
      by_cases accepted : pattern.accepts row <;> simp [accepted]

variable {extent : Option (List Value)}

mutual

/-- An evaluator that does not lack the extent lists the enumeration. -/
theorem enumeration_eq {pattern : Pattern} {rows : List Value}
    (listed : pattern.extentRows extent = .ok rows) :
    pattern.enumeration (extent.getD []) = rows := by
  cases pattern with
  | literal value =>
      cases listed
      rfl
  | wildcard | var name =>
      cases extent <;> cases listed
      rfl
  | tuple patterns =>
      obtain ⟨found, others, isRows⟩ := Outcome.bind_eq_ok_iff.mp listed
      cases isRows
      rw [enumeration, product_columns_eq others]

theorem product_columns_eq {patterns : List Pattern} {rows : List (List Value)}
    (listed : extentColumns extent patterns = .ok rows) :
    product (columns (extent.getD []) patterns) = rows := by
  cases patterns with
  | nil =>
      cases listed
      rfl
  | cons pattern patterns =>
      obtain ⟨column, first, listed⟩ := Outcome.bind_eq_ok_iff.mp listed
      obtain ⟨rest, others, listed⟩ := Outcome.bind_eq_ok_iff.mp listed
      cases listed
      rw [columns, product, enumeration_eq first, product_columns_eq others]

end

end Pattern

namespace Expr

open Query

variable {session : Session} {call : Caller} {env : Env} {site : Site}

theorem evalSteps_eq {steps : List Step} {output : Value}
    {result : Option Value}
    (evaluated : evalSteps session call env site output steps = .ok result) :
    result = if passes session call env site steps then
        some ((outputs session call env site steps).getLast?.getD output)
      else none := by
  induction steps generalizing site output with
  | nil =>
      cases evaluated
      rfl
  | cons step steps induction =>
      cases step with
      | filter condition =>
          obtain ⟨value, conditionValue, rest⟩ :=
            Outcome.bind_eq_ok_iff.mp evaluated
          obtain ⟨holds, isBool, rest⟩ := Outcome.bind_eq_ok_iff.mp rest
          cases value with
          | bool truth =>
              cases isBool
              simp only [passes, outputs, conditionValue, Outcome.isTrue]
              cases holds with
              | false =>
                  cases rest
                  rfl
              | true => exact induction rest
          | _ => cases isBool
      | yield expr =>
          obtain ⟨value, exprValue, rest⟩ := Outcome.bind_eq_ok_iff.mp evaluated
          rw [induction rest]
          simp only [passes, outputs, exprValue, Except.toOption,
            Option.toList_some, List.singleton_append, List.getLast?_cons,
            Option.getD_some]

theorem candidates_eq {pattern : Pattern} {source : Option Expr}
    {sourced : Rows}
    (evaluated : evalSource session call env site pattern source =
      .ok sourced) :
    candidates session call env site pattern source = sourced.rows := by
  cases source with
  | none =>
      obtain ⟨rows, listed, rest⟩ := Outcome.bind_eq_ok_iff.mp evaluated
      cases rest
      exact Pattern.enumeration_eq listed
  | some source =>
      obtain ⟨value, sourceValue, rest⟩ := Outcome.bind_eq_ok_iff.mp evaluated
      cases value with
      | collection kind rows =>
          cases rest
          simp [candidates, sourceValue]
      | _ => cases rest

/-- The ways through a first scan and others are those behind each matching
row. -/
theorem branches_cons {pattern : Pattern} {source : Option Expr}
    {scans : List Scan} :
    branches session call env site (⟨pattern, source⟩ :: scans) =
      (pattern.matching env
        (candidates session call env (0 :: site) pattern source)).flatMap
        fun (index, row, inner) =>
          (branches session call inner ((index + 1) :: site) scans).map
            fun branch => { branch with scanned := row :: branch.scanned } := by
  rw [Pattern.matching_eq, List.flatMap_map]
  rfl

/-- Branches that start behind some scanned values. -/
theorem filterMap_scanned (steps : List Step) (scanned : List Value)
    (row : Value) (found : List Branch) :
    (found.map fun branch =>
        { branch with scanned := row :: branch.scanned }).filterMap
        (fun branch => row? session call steps
          { branch with scanned := scanned ++ branch.scanned }) =
      found.filterMap fun branch => row? session call steps
        { branch with scanned := scanned ++ [row] ++ branch.scanned } := by
  rw [List.filterMap_map]
  refine congrArg (found.filterMap ·) ?_
  funext branch
  simp

/-- Listing the rows of a comprehension gives what its branches output, where
other values may have been scanned before. -/
theorem collectScans_rows {scans : List Scan} {steps : List Step}
    {scanned : List Value} {found : Rows}
    (collected : collectScans session call
      (fun env site scanned =>
        evalSteps session call env site (.ofScanned scanned) steps)
      env site scanned scans = .ok found) :
    found.rows = (branches session call env site scans).filterMap fun branch =>
      row? session call steps
        { branch with scanned := scanned ++ branch.scanned } := by
  induction scans generalizing env site scanned found with
  | nil =>
      obtain ⟨output, finished, isFound⟩ :=
        collectScans_nil_eq_ok_iff.mp collected
      subst isFound
      rw [evalSteps_eq finished, branches, List.filterMap_cons,
        List.filterMap_nil, row?, List.append_nil]
      split <;> rfl
  | cons scan scans induction =>
      obtain ⟨pattern, source⟩ := scan
      obtain ⟨sourced, parts, evaluated, pairs, isFound⟩ :=
        collectScans_cons_eq_ok_iff.mp collected
      subst isFound
      rw [branches_cons, candidates_eq evaluated, Rows.below,
        List.filterMap_flatMap]
      generalize pattern.matching env sourced.rows = entries at pairs
      clear collected
      dsimp only
      induction pairs with
      | nil => rfl
      | cons done _ rest =>
          rw [List.flatMap_cons, List.flatMap_cons, rest, induction done,
            filterMap_scanned]

section Existence

variable {finish : Env → Site → List Value → Outcome (Option Value)}
  {scanned : List Value}

/-- Where all rows can be listed, the search for one finds one exactly if there
is one. -/
theorem existsScans_of_collectScans {scans : List Scan} {found : Rows}
    (collected : collectScans session call finish env site scanned scans =
      .ok found) :
    existsScans session call finish env site scanned scans =
      .ok !found.rows.isEmpty := by
  induction scans generalizing env site scanned found with
  | nil =>
      obtain ⟨output, finished, isFound⟩ :=
        collectScans_nil_eq_ok_iff.mp collected
      subst isFound
      rw [existsScans, finished]
      cases output <;> rfl
  | cons scan scans induction =>
      obtain ⟨pattern, source⟩ := scan
      obtain ⟨sourced, parts, evaluated, pairs, isFound⟩ :=
        collectScans_cons_eq_ok_iff.mp collected
      subst isFound
      rw [existsScans, evaluated, Outcome.ok_bind, Rows.below]
      generalize pattern.matching env sourced.rows = entries at pairs
      clear collected
      dsimp only
      induction pairs with
      | nil => rfl
      | @cons _ part _ _ done _ rest =>
          rw [List.anyM_cons, induction done, Outcome.ok_bind,
            List.flatMap_cons]
          cases part.rows with
          | nil => exact rest
          | cons => rfl

/-- A search that finds nothing has met no failure, so that all rows can be
listed. -/
theorem collectScans_of_existsScans {scans : List Scan}
    (absent : existsScans session call finish env site scanned scans =
      .ok false) :
    Yields (collectScans session call finish env site scanned scans) fun _ =>
      False := by
  induction scans generalizing env site scanned with
  | nil =>
      obtain ⟨output, finished, rest⟩ := Outcome.bind_eq_ok_iff.mp absent
      cases output with
      | none => simpa using collectScans_nil_yields finished
      | some value => cases rest
  | cons scan scans induction =>
      obtain ⟨pattern, source⟩ := scan
      obtain ⟨sourced, evaluated, rest⟩ := Outcome.bind_eq_ok_iff.mp absent
      have each := Outcome.forall_of_anyM_eq_false rest
      have below := @collectScans_cons_yields session call env site finish
        scanned pattern source scans sourced (fun _ _ _ => False) evaluated ?_
      · simpa using below
      · intro index row inner located binds
        exact induction (each (index, row, inner)
          (Pattern.mem_matching_iff.mpr ⟨located, binds⟩))

end Existence

/-- If listing a comprehension returns, its rows are those of the nested list
comprehension that it means, in order, and the search for a row then returns
whether there is one.  If the search returns that there is none, listing returns
an empty collection. -/
theorem comprehension_agrees_with_meaning (session : Session) (call : Caller)
    (env : Env) (site : Site) (query : Query) :
    (∀ value, eval session call env site (.collect query) = .ok value →
      (∃ kind, value = .collection kind (query.meaning session call env site)) ∧
        eval session call env site (.existence query) =
          .ok (.bool !(query.meaning session call env site).isEmpty)) ∧
      (eval session call env site (.existence query) = .ok (.bool false) →
        ∃ kind, eval session call env site (.collect query) =
          .ok (.collection kind [])) := by
  obtain ⟨scans, steps⟩ := query
  constructor
  · intro value evaluated
    obtain ⟨found, collected, rest⟩ := Outcome.bind_eq_ok_iff.mp evaluated
    cases rest
    have rows : found.rows =
      Query.meaning session call env site ⟨scans, steps⟩ :=
      collectScans_rows collected
    refine ⟨⟨found.kind, by rw [rows]⟩, ?_⟩
    rw [eval, existsScans_of_collectScans collected, rows]
    rfl
  · intro absent
    obtain ⟨found, searched, rest⟩ := Outcome.bind_eq_ok_iff.mp absent
    cases rest
    obtain ⟨found, collected, members⟩ := collectScans_of_existsScans searched
    have empty : found.rows = [] :=
      List.eq_nil_iff_forall_not_mem.mpr fun row => (members row).mp
    refine ⟨found.kind, ?_⟩
    rw [eval, collected, ← empty]
    rfl

/-- With the extent `[1, 2]`: `from (x, 1) in [(1, 1), (2, 0), (3, 1)], y in [x,
4] where x < y yield y yield (y, x)`, whose first pattern skips a row between
two others, `from (x, 1) in [(1, 1), (2, 0)], (y, 7, _)`, which has two scans
and no output, and `from z` and `from z where z < 1`. -/
theorem comprehension_agrees_with_meaning_pairs :
    let session : Session := ⟨[], [], { extent := some [.int 1, .int 2] }⟩
    let meaning (query : Query) : List Value :=
      query.meaning session (session.call 0) [] []
    let result (expr : Expr) : Outcome Value :=
      expr.eval session (session.call 0) [] []
    let pair (left right : Int64) : Expr := .tuple [.int left, .int right]
    let first (rows : List Expr) : Scan :=
      ⟨.tuple [.var "x", .literal (.int 1)], some (.list rows)⟩
    let yielded : Query :=
      ⟨[first [pair 1 1, pair 2 0, pair 3 1],
          ⟨.var "y", some (.list [.var "x", .int 4])⟩],
        [.filter (.binary .lt (.var "x") (.var "y")), .yield (.var "y"),
          .yield (.tuple [.var "y", .var "x"])]⟩
    let scanned : Query :=
      ⟨[first [pair 1 1, pair 2 0],
          ⟨.tuple [.var "y", .literal (.int 7), .wildcard], none⟩], []⟩
    let single (steps : List Step) : Query := ⟨[⟨.var "z", none⟩], steps⟩
    let negative : Query := single [.filter (.binary .lt (.var "z") (.int 1))]
    let found (left right : Int64) : Value :=
      .tuple [.tuple [.int 1, .int 1], .tuple [.int left, .int 7, .int right]]
    (meaning yielded = [.tuple [.int 4, .int 1], .tuple [.int 4, .int 3]] ∧
        result (.existence yielded) = .ok (.bool true)) ∧
      (meaning scanned = [found 1 1, found 1 2, found 2 1, found 2 2] ∧
        result (.existence scanned) = .ok (.bool true)) ∧
      (meaning (single []) = [.int 1, .int 2] ∧
        result (.existence (single [])) = .ok (.bool true)) ∧
      (meaning negative = [] ∧
        result (.existence negative) = .ok (.bool false)) ∧
      ∃ kind, result (.collect negative) = .ok (.collection kind []) := by
  intro session meaning result pair first yielded scanned single negative found
  have agrees :=
    comprehension_agrees_with_meaning session (session.call 0) [] []
  have listed {query : Query} {rows : List Value}
      (collected : result (.collect query) = .ok (.collection .list rows)) :
      meaning query = rows ∧
        result (.existence query) = .ok (.bool !rows.isEmpty) := by
    obtain ⟨⟨kind, same⟩, searched⟩ := (agrees query).1 _ collected
    obtain ⟨_, rows⟩ := Value.collection.inj same
    rw [← rows] at searched
    exact ⟨rows.symm, searched⟩
  exact ⟨listed rfl, listed rfl, listed rfl, listed rfl,
    (agrees negative).2 rfl⟩

end Expr

end RecursiveQuery
