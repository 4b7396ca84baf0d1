import RecursiveQuery.Inversion.QueryPlan
import RecursiveQuery.Proofs.Names

/-!
# Runs of the planner

What the stages of planning return, given what the stages inside them return:
taking `exists` filters apart, building a sequence, the scans of a step, and the
plan of a recursion with a single step.
-/

namespace RecursiveQuery

namespace Inversion

/-- A membership is inverted alike however functions are unfolded. -/
theorem base_run_member {program : Program} {active : List Name} {scope : Scope}
    {left right : Expr} {name : Name}
    (mentioned : name ∈ scope.locals program (.binary .member left right))
    (free : scope.isBound name = false) (supply : NameSupply) :
    (base program active scope (.binary .member left right)).run supply =
      (ofMember program scope left right).run supply := by
  have unbound :
    (scope.locals program (.binary .member left right)).all scope.isBound =
      false := by
    rw [List.all_eq_false]
    exact ⟨name, mentioned, by simp [free]⟩
  have size : (Expr.binary .member left right).size =
    (left.size + right.size) + 1 := by
    simp only [Expr.size]
    omega
  unfold base
  cases program.decls.length with
  | zero =>
      rw [within, size, ofTerm]
      simp [unbound]
  | succ count =>
      rw [within, size, ofTerm]
      simp [unbound]

end Inversion

namespace Scope

variable {scope : Scope} {program : Program} {supply later : NameSupply}
variable {query : Query} {taken next : List Name} {clauses : List Expr}

theorem flattenEach_run_nil
    (flatten : Expr → (taken : List Name) → Naming (List Expr × List Name))
    (taken : List Name) :
    (flattenEach flatten [] taken).run supply = (([], taken), supply) :=
  rfl

theorem flattenEach_run_cons
    (flatten : Expr → (taken : List Name) → Naming (List Expr × List Name))
    (expr : Expr) (exprs : List Expr) (taken : List Name) :
    (flattenEach flatten (expr :: exprs) taken).run supply =
      let first := (flatten expr taken).run supply
      let rest := (flattenEach flatten exprs first.1.2).run first.2
      ((first.1.1 ++ rest.1.1, rest.1.2), rest.2) :=
  rfl

/-- An `exists` filter is replaced by the clauses of its parts. -/
theorem flattenWithin_run_existence (nesting : Nat)
    (unwrapped : (scope.unwrap program query taken).run supply =
      ((some clauses, next), later)) :
    (scope.flattenWithin program (nesting + 1) (.existence query) taken).run
    supply =
      (flattenEach (scope.flattenWithin program nesting) clauses next).run
        later := by
  have conjuncts : (Expr.existence query).conjuncts = [.existence query] := rfl
  rw [flattenWithin, conjuncts, flattenEach_run_cons]
  dsimp only
  rw [Naming.run_bind, unwrapped]
  simp only [flattenEach_run_nil, List.append_nil]
  rfl

/-- Conjuncts that are no `exists` filters are clauses already. -/
theorem flattenWithin_run_of_plain {expr : Expr} (nesting : Nat)
    (taken : List Name) (plain : ∀ query, .existence query ∉ expr.conjuncts) :
    (scope.flattenWithin program (nesting + 1) expr taken).run supply =
      ((expr.conjuncts, taken), supply) := by
  rw [flattenWithin]
  generalize expr.conjuncts = conjuncts at plain
  induction conjuncts with
  | nil => rfl
  | cons conjunct conjuncts induction =>
      rw [flattenEach_run_cons]
      have kept := induction fun query member =>
        plain query (List.mem_cons_of_mem _ member)
      cases conjunct with
      | existence query => exact absurd List.mem_cons_self (plain query)
      | _ =>
          simp only [Naming.run_pure, kept, List.singleton_append]
theorem unwrap_run {renamed : List Expr} {renames : List (Name × Name)}
    {named : NameSupply} (parts : query.filterClauses? = some clauses)
    (apart : (scope.nameApart program query.scanVars taken).run supply =
      ((renames, next), named))
    (rename : (renameClauses renames clauses).run named = (renamed, later)) :
    (scope.unwrap program query taken).run supply =
    ((some renamed, next), later) := by
  rw [unwrap, parts]
  change StateT.run (scope.nameApart program query.scanVars taken >>= _)
    supply = _
  rw [Naming.run_bind, apart]
  change StateT.run (renameClauses renames clauses >>= _) named = _
  rw [Naming.run_bind, rename]
  rfl

end Scope

namespace Pattern

variable {first second : Name} {scope : Scope} {inScope : List Name}
  {supply : NameSupply}

theorem freshen_run_free (firstFree : scope.isBound first = false)
    (secondFree : scope.isBound second = false) (different : first ≠ second) :
    ((tuple [.var first, .var second]).freshen scope).run supply =
      ((.tuple [.var first, .var second], []), supply) := by
  simp [freshen, freshenFrom, freshenFromList, firstFree, secondFree,
    different.symm]
  rfl

/-- A bound variable is replaced by a new one that has to equal it. -/
theorem freshen_run_bound (firstBound : scope.isBound first = true)
    (secondFree : scope.isBound second = false) :
    ((tuple [.var first, .var second]).freshen scope).run supply =
      let other := supply.freshName first
      ((.tuple [.var other, .var second], [.equals (.var other) (.var first)]),
        supply.reserve other) := by
  simp [freshen, freshenFrom, freshenFromList, firstBound, secondFree,
    NameSupply.fresh_run]
  rfl

theorem renameClashes_run_none (different : first ≠ second)
    (firstFree : first ∉ inScope) (secondFree : second ∉ inScope) :
    ((tuple [.var first, .var second]).renameClashes inScope).run supply =
      ((.tuple [.var first, .var second], [], []), supply) := by
  have kept : (tuple [.var first, .var second]).vars.filter inScope.contains =
    [] := by
    simp [vars_pair different, firstFree, secondFree]
  rw [renameClashes, kept]
  rfl

theorem renameClashes_run_first (different : first ≠ second)
    (firstUsed : first ∈ inScope) (secondFree : second ∉ inScope) :
    ((tuple [.var first, .var second]).renameClashes inScope).run supply =
      let other := supply.freshName first
      ((.tuple [.var other, .var second], [(first, other)],
        [.equals (.var first) (.var other)]), supply.reserve other) := by
  have clash : (tuple [.var first, .var second]).vars.filter inScope.contains =
      [first] := by
    simp [vars_pair different, firstUsed, secondFree]
  have renamed : (tuple [.var first, .var second]).rename
      (Name.renamed [(first, supply.freshName first)]) =
        .tuple [.var (supply.freshName first), .var second] := by
    have other : (second == first) = false := by simpa using different.symm
    simp [rename, renameList, Name.renamed, List.lookup_cons, List.lookup_nil,
      other]
  rw [renameClashes, clash]
  change ((rename _ _, _, _), _) = _
  rw [renamed]
  rfl

end Pattern

namespace AnalysisTree

theorem buildEach_run_cons (build : Scope → Expr → Naming AnalysisTree)
    (clause : Expr) (clauses : List Expr) (scope : Scope)
    (supply : NameSupply) :
    (buildEach build (clause :: clauses) scope).run supply =
      let child := (build scope clause).run supply
      let children :=
        (buildEach build clauses (child.1.extend scope)).run child.2
      (child.1 :: children.1, children.2) :=
  rfl

/-- Two clauses make a sequence. -/
theorem buildWithin_run_sequence {program : Program} {invert : Inverter}
    {active : List Name} {scope : Scope} {expr first second : Expr}
    {children : List AnalysisTree} {supply named later : NameSupply}
    {size : Nat} (single : expr.disjuncts = [expr])
    (flattened : (scope.flatten program expr).run supply =
      ([first, second], named))
    (built : (buildEach (buildWithin program invert active size) [first, second]
      (scope.withJoins (joinVars program scope [first, second]))).run named =
        (children, later)) :
    (buildWithin program invert active (size + 1) scope expr).run supply =
      (.sequence children (joinVars program scope [first, second]), later) := by
  rw [buildWithin, single]
  change StateT.run (scope.flatten program expr >>= _) supply = _
  rw [Naming.run_bind, flattened]
  change StateT.run (buildEach _ _ _ >>= _) named = _
  rw [Naming.run_bind, built]
  rfl

end AnalysisTree

namespace StepCase

variable {increment : Name} {source : Expr → Expr} {inScope : List Name}
  {clauses : List StepClause} {supply : NameSupply}

theorem scansOf_run_scan {generator : Generator} {residual : List Expr} :
    (scansOf increment source (.scan generator residual :: clauses) inScope).run
    supply =
      let apart := (generator.pattern.renameClashes inScope).run supply
      let renamed := (Scope.renameClauses apart.1.2.1 residual).run apart.2
      let rest := (scansOf increment source clauses
        (inScope ++ apart.1.1.vars)).run renamed.2
      ((⟨apart.1.1, some (source generator.source)⟩ :: rest.1.1,
        apart.1.2.2 ++ renamed.1 ++ rest.1.2), rest.2) :=
  rfl

theorem scansOf_run_recursive {function : Name} {argument : Pattern} :
    (scansOf increment source (.recursive function argument :: clauses)
      inScope).run supply =
      let apart := (argument.renameClashes inScope).run supply
      let rest := (scansOf increment source clauses
        (inScope ++ apart.1.1.vars)).run apart.2
      ((⟨apart.1.1, some (.var increment)⟩ :: rest.1.1,
        apart.1.2.2 ++ rest.1.2), rest.2) :=
  rfl

end StepCase

namespace Recursion

/-- The source that a step of a recursion scans in place of a source. -/
def stepSource (recursion : Recursion) (settings : Settings) (case : StepCase)
    (found : Name) (expr : Expr) : Expr :=
  if recursion.replacedSource? settings case = some expr then .var found
  else expr

/-- The plan of a recursion with a single step. -/
theorem plan_run_single {goals : List Name} {base : BaseCase} {case : StepCase}
    {settings : Settings} {found increment : Name} {scans : List Scan}
    {conditions : List Expr}
    {supply foundSupply incrementSupply later : NameSupply}
    (foundRun : (NameSupply.acquire "old").run supply = (found, foundSupply))
    (incrementRun : (NameSupply.acquire "new").run foundSupply =
      (increment, incrementSupply)) (scansRun : (StepCase.scansOf increment
      (stepSource ⟨goals, base, [case]⟩ settings case found)
        case.clauses []).run incrementSupply = ((scans, conditions), later)) :
    ((⟨goals, base, [case]⟩ : Recursion).plan settings).run supply =
      (⟨.row goals,
        .apply (.apply (.var (Builtin.iterate base.generator.kind).name)
          (⟨goals, base, [case]⟩ : Recursion).baseRelation)
          (.lambda (.tuple [.var found, .var increment])
            (.collect (.filtered scans conditions (.row goals)))),
        base.generator.kind, .finite⟩, later) := by
  have bodyRun : (case.body (.row goals) found increment
      (replacedSource? ⟨goals, base, [case]⟩ settings case)).run
      incrementSupply =
        (.collect (.filtered scans conditions (.row goals)), later) := by
    rw [StepCase.body]
    change StateT.run
      (StepCase.scansOf increment (stepSource ⟨goals, base, [case]⟩ settings
      case found) case.clauses [] >>= _) incrementSupply = _
    rw [Naming.run_bind, scansRun]
    rfl
  rw [plan, Naming.run_bind, foundRun]
  dsimp only
  rw [Naming.run_bind, incrementRun]
  dsimp only
  rw [Naming.run_bind, bodies, Naming.run_bind, bodyRun]
  rfl

end Recursion

end RecursiveQuery
