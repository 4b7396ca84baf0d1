import RecursiveQuery.Expr.Names
import RecursiveQuery.Expr.Shape

/-!
# Connectives

A property that conjunctions and disjunctions pass on to both sides holds of
their terms, and one that passes from both sides to them holds of what is put
together again.
-/

namespace RecursiveQuery

namespace Expr

variable {holds : Expr → Prop}
variable {expr conjunct : Expr}

theorem forall_mem_conjuncts
    (both : ∀ left right, holds (andAlso left right) → holds left ∧ holds right)
    {expr : Expr} (given : holds expr) :
    ∀ term ∈ expr.conjuncts, holds term := by
  fun_induction conjuncts expr with
  | case1 left right leftInduction rightInduction =>
      obtain ⟨leftHolds, rightHolds⟩ := both left right given
      exact List.forall_mem_append.mpr
        ⟨leftInduction leftHolds, rightInduction rightHolds⟩
  | case2 => simpa using given

theorem forall_mem_disjuncts
    (both : ∀ left right, holds (orElse left right) → holds left ∧ holds right)
    {expr : Expr} (given : holds expr) :
    ∀ term ∈ expr.disjuncts, holds term := by
  fun_induction disjuncts expr with
  | case1 left right leftInduction rightInduction =>
      obtain ⟨leftHolds, rightHolds⟩ := both left right given
      exact List.forall_mem_append.mpr
        ⟨leftInduction leftHolds, rightInduction rightHolds⟩
  | case2 => simpa using given

theorem conjunction_of_forall (none : holds (bool true))
    (both : ∀ left right, holds left → holds right → holds (andAlso left right))
    {terms : List Expr} (all : ∀ term ∈ terms, holds term) :
    holds (conjunction terms) := by
  cases terms with
  | nil => exact none
  | cons first rest =>
      rw [conjunction]
      induction rest generalizing first with
      | nil => exact all first List.mem_cons_self
      | cons second rest induction =>
          refine induction (andAlso first second) ?_
          simp only [List.forall_mem_cons] at all ⊢
          exact ⟨both first second all.1 all.2.1, all.2.2⟩

theorem disjunction_of_forall
    (both : ∀ left right, holds left → holds right → holds (orElse left right))
    {first : Expr} {rest : List Expr} (firstHolds : holds first)
    (all : ∀ term ∈ rest, holds term) : holds (disjunction first rest) := by
  rw [disjunction]
  induction rest generalizing first with
  | nil => exact firstHolds
  | cons second rest induction =>
      rw [List.forall_mem_cons] at all
      exact induction (both first second firstHolds all.1) all.2

/-- What an expression passes on to its disjuncts holds of the first one, and of
the disjunction of the others. -/
theorem disjuncts_cases
    (both : ∀ left right, holds (orElse left right) ↔ holds left ∧ holds right)
    {expr first second : Expr} {rest : List Expr} (given : holds expr)
    (arms : expr.disjuncts = first :: second :: rest) :
    holds first ∧ holds (disjunction second rest) := by
  have each :=
    forall_mem_disjuncts (fun left right => (both left right).mp) given
  rw [arms, List.forall_mem_cons, List.forall_mem_cons] at each
  refine ⟨each.1, disjunction_of_forall ?_ each.2.1 each.2.2⟩
  intro left right leftHolds rightHolds
  exact (both left right).mpr ⟨leftHolds, rightHolds⟩

theorem conjuncts_ne_nil (expr : Expr) : expr.conjuncts ≠ [] := by
  fun_induction conjuncts expr with
  | case1 left right leftInduction _ => simp [leftInduction]
  | case2 => simp

theorem disjuncts_ne_nil (expr : Expr) : expr.disjuncts ≠ [] := by
  fun_induction disjuncts expr with
  | case1 left right leftInduction _ => simp [leftInduction]
  | case2 => simp

theorem eq_of_conjuncts_eq_singleton (single : expr.conjuncts = [conjunct]) :
    conjunct = expr := by
  fun_induction conjuncts expr with
  | case1 left right =>
      have lengths := congrArg List.length single
      have leftSome := List.length_pos_iff.mpr left.conjuncts_ne_nil
      have rightSome := List.length_pos_iff.mpr right.conjuncts_ne_nil
      rw [List.length_append, List.length_singleton] at lengths
      omega
  | case2 => exact (List.singleton_inj.mp single).symm

theorem conjuncts_of_mem_conjuncts (member : conjunct ∈ expr.conjuncts) :
    conjunct.conjuncts = [conjunct] := by
  fun_induction conjuncts expr with
  | case1 left right leftInduction rightInduction =>
      rcases List.mem_append.mp member with inLeft | inRight
      · exact leftInduction inLeft
      · exact rightInduction inRight
  | case2 term single =>
      rw [List.mem_singleton.mp member]
      exact conjuncts.eq_2 term single

theorem freeVars_of_mem_conjuncts (member : conjunct ∈ expr.conjuncts) :
    conjunct.freeVars ⊆ expr.freeVars :=
  @forall_mem_conjuncts (fun term => term.freeVars ⊆ expr.freeVars)
    (fun _ _ given => List.append_subset.mp given) expr (List.Subset.refl _)
    conjunct member

end Expr

end RecursiveQuery
