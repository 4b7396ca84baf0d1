import RecursiveQuery.Inversion.Tree
import RecursiveQuery.Proofs.NamingRuns

/-!
# Runs of building trees

A property of trees that holds of every leaf and that branches and sequences
pass on holds of whole trees.  What is given for an expression may depend on the
scope and has to survive the scopes that sequences lead to.
-/

namespace RecursiveQuery

namespace AnalysisTree

variable {program : Program} {invert : Inverter} {active : List Name}
  {given : Scope → Expr → NameSupply → Prop}
    {holds : Scope → AnalysisTree → NameSupply → Prop}
  {holdAll : Scope → List AnalysisTree → NameSupply → Prop}

theorem leaf_ensures {scope : Scope} {expr : Expr} {supply : NameSupply}
    (calls : ∀ function argument, expr.namedCall? = some (function, argument) →
      holds scope (terminal ⟨expr, .recursive function argument⟩) supply)
    (inverts : (invert active scope expr).Ensures supply fun inversion later =>
      holds scope (terminal ⟨expr, .inverted inversion⟩) later) :
    (leaf invert active scope expr).Ensures supply fun tree later =>
    holds scope tree later := by
  have inverted : Naming.Ensures (invert active scope expr >>= fun inversion =>
      pure (terminal ⟨expr, .inverted inversion⟩)) supply
        fun tree later => holds scope tree later := by
    refine .bind inverts ?_
    intro inversion later _ found
    exact .pure found
  rw [leaf]
  split
  · next function argument called =>
      split
      · exact .pure (calls function argument called)
      · exact inverted
  · exact inverted

section Sequences

variable
  (kept : ∀ scope expr supply later, supply.used ⊆ later.used →
    given scope expr supply → given scope expr later)
  (lasting : ∀ scope tree supply later, supply.used ⊆ later.used →
    holds scope tree supply → holds scope tree later)
  (extended : ∀ scope expr supply tree, given scope expr supply →
    holds scope tree supply → given (tree.extend scope) expr supply)
  (nil : ∀ scope supply, holdAll scope [] supply)
  (cons : ∀ scope child children supply, holds scope child supply →
    holdAll (child.extend scope) children supply →
      holdAll scope (child :: children) supply)

include kept lasting extended nil cons

theorem buildEach_ensures {build : Scope → Expr → Naming AnalysisTree}
    (builds : ∀ scope expr supply, given scope expr supply →
      (build scope expr).Ensures supply fun tree later =>
        holds scope tree later)
    {clauses : List Expr} {scope : Scope} {supply : NameSupply}
    (clausesGiven : ∀ clause ∈ clauses, given scope clause supply) :
    (buildEach build clauses scope).Ensures supply
      fun children later => holdAll scope children later := by
  induction clauses generalizing scope supply with
  | nil => exact .pure (nil scope supply)
  | cons clause clauses induction =>
      rw [List.forall_mem_cons] at clausesGiven
      refine .bind (builds scope clause supply clausesGiven.1) ?_
      intro child later grown childHolds
      refine .bind
        (induction fun other member => extended scope other later child
        (kept scope other supply later grown (clausesGiven.2 other member))
        childHolds) ?_
      intro children last grownLast childrenHold
      exact .pure (cons scope child children last
        (lasting scope child later last grownLast childHolds) childrenHold)

theorem buildWithin_ensures
    (leaves : ∀ scope expr supply, given scope expr supply →
      (leaf invert active scope expr).Ensures supply fun tree later =>
        holds scope tree later)
    (disjuncts : ∀ scope expr supply first second rest,
      given scope expr supply → expr.disjuncts = first :: second :: rest →
      given scope first supply ∧ given scope (.disjunction second rest) supply)
    (flattens : ∀ scope expr supply, given scope expr supply →
      (scope.flatten program expr).Ensures supply fun clauses later =>
        ∀ clause ∈ clauses, given scope clause later ∧
          ∀ joins, given (scope.withJoins joins) clause later)
    (branches : ∀ scope left right supply, holds scope left supply →
      holds scope right supply → holds scope (branch left right) supply)
    (sequences : ∀ scope clauses children supply,
      holdAll (scope.withJoins (joinVars program scope clauses)) children
        supply →
      holds scope (sequence children (joinVars program scope clauses)) supply)
    (size : Nat) {scope : Scope} {expr : Expr} {supply : NameSupply}
    (exprGiven : given scope expr supply) :
    (buildWithin program invert active size scope expr).Ensures supply
      fun tree later => holds scope tree later := by
  induction size generalizing scope expr supply with
  | zero => exact leaves scope expr supply exprGiven
  | succ size induction =>
      rw [buildWithin]
      split
      · next first second rest arms =>
          obtain ⟨firstGiven, restGiven⟩ :=
            disjuncts scope expr supply first second rest exprGiven arms
          refine .bind (induction firstGiven) ?_
          intro left later grown leftHolds
          refine .bind
            (induction (kept scope _ supply later grown restGiven)) ?_
          intro right last grownLast rightHolds
          exact .pure (branches scope left right last
            (lasting scope left later last grownLast leftHolds) rightHolds)
      · refine .bind (flattens scope expr supply exprGiven) ?_
        intro clauses later grown clausesGiven
        have stillGiven := kept scope expr supply later grown exprGiven
        rcases clauses with _ | ⟨single, _ | ⟨second, rest⟩⟩
        · exact leaves scope expr later stillGiven
        · dsimp only
          split
          · exact leaves scope expr later stillGiven
          · exact induction (clausesGiven single List.mem_cons_self).1
        · refine .bind (buildEach_ensures kept lasting extended nil cons
            (fun _ _ _ given => induction given)
            fun clause member => (clausesGiven clause member).2 _) ?_
          intro children last _ childrenHold
          exact .pure (sequences scope (single :: second :: rest) children last
            childrenHold)

end Sequences

/-- What branches pass on to both sides holds of all arms. -/
theorem forall_mem_arms {passes : AnalysisTree → Prop}
    (branches : ∀ left right, passes (branch left right) → passes left ∧
      passes right)
    {tree : AnalysisTree} (given : passes tree) :
    ∀ arm ∈ tree.arms, passes arm := by
  intro arm member
  fun_induction arms tree with
  | case1 left right induction =>
      rcases List.mem_cons.mp member with rfl | inRight
      · exact (branches _ _ given).1
      · exact induction (branches _ _ given).2 inRight
  | case2 => rwa [List.mem_singleton.mp member]

end AnalysisTree

end RecursiveQuery
