import Mathlib.Data.List.Forall2
import RecursiveQuery.Inversion.Plan

/-!
# The shape of a recursion

What is known of a tree once a recursion is read off it: the arms are one finite
relation over the goals and sequences of clauses that each scan something and
produce all goals.
-/

namespace RecursiveQuery

namespace Refusal

variable {α β : Type}

theorem bind_eq_ok_iff {first : Except Refusal α} {next : α → Except Refusal β}
    {value : β} : (first >>= next) = .ok value ↔ ∃ middle, first = .ok middle ∧
    next middle = .ok value := by
  cases first with
  | error refusal => exact ⟨nofun, nofun⟩
  | ok middle =>
      refine ⟨fun returned => ⟨middle, rfl, returned⟩, ?_⟩
      rintro ⟨_, equality, returned⟩
      cases equality
      exact returned

/-- A check that lets the rest through. -/
theorem refuse_eq_ok_iff {condition : Prop} [Decidable condition]
    {refusal : Refusal} {rest : Except Refusal α} {value : α} :
    (if condition then throw refusal >>= fun _ : PUnit => rest else rest) =
    .ok value ↔ ¬condition ∧ rest = .ok value := by
  by_cases refused : condition
  · simp [refused, throw, throwThe, MonadExceptOf.throw, bind, Except.bind]
  · simp [refused]

theorem mapM_eq_ok_iff {read : α → Except Refusal β} {items : List α}
    {results : List β} : items.mapM read = .ok results ↔
      List.Forall₂ (fun item result => read item = .ok result) items
        results := by
  induction items generalizing results with
  | nil =>
      rw [List.mapM_nil, List.forall₂_nil_left_iff]
      exact ⟨fun same => (Except.ok.inj same).symm,
        fun same => congrArg _ same.symm⟩
  | cons item items induction =>
      rw [List.mapM_cons, bind_eq_ok_iff, List.forall₂_cons_left_iff]
      simp only [bind_eq_ok_iff, induction]
      constructor
      · rintro ⟨result, done, later, restDone, equality⟩
        cases equality
        exact ⟨result, later, done, restDone, rfl⟩
      · rintro ⟨result, later, done, restDone, rfl⟩
        exact ⟨result, done, later, restDone, rfl⟩

theorem exists_of_mem_mapM {read : α → Except Refusal β} {items : List α}
    {results : List β} (returned : items.mapM read = .ok results) :
    ∀ result ∈ results, ∃ item ∈ items, read item = .ok result := by
  have pairs := mapM_eq_ok_iff.mp returned
  clear returned
  induction pairs with
  | nil => simp
  | cons done _ induction =>
      rw [List.forall_mem_cons]
      refine ⟨⟨_, List.mem_cons_self, done⟩, ?_⟩
      intro result member
      obtain ⟨item, itemMember, found⟩ := induction result member
      exact ⟨item, List.mem_cons_of_mem _ itemMember, found⟩

end Refusal

/-- A search for a missing name that finds none. -/
theorem find?_eq_none_iff_subset {goals names : List Name} :
    (goals.find? fun goal => !names.contains goal) = none ↔ goals ⊆ names := by
  simp [List.find?_eq_none, List.subset_def]

namespace BaseCase

variable {goals : List Name} {tree : AnalysisTree} {base : BaseCase}

/-- Gathering takes clauses that generate rows and clauses that test them. -/
theorem gather_cons_cases {child : AnalysisTree} {children : List AnalysisTree}
    {gathered : List Generator × List Expr}
    (found : gather (child :: children) = .ok gathered) :
    ∃ rest, gather children = .ok rest ∧
      ((∃ term generator residual,
          child = .terminal ⟨term, .inverted (.generated generator residual)⟩ ∧
          gathered = (generator :: rest.1, residual ++ rest.2)) ∨
        ∃ term, child = .terminal ⟨term, .inverted .filter⟩ ∧
          gathered = (rest.1, term :: rest.2)) := by
  match child with
  | .terminal ⟨term, .inverted (.generated generator residual)⟩ =>
      obtain ⟨rest, foundRest, equality⟩ := Refusal.bind_eq_ok_iff.mp found
      cases equality
      exact ⟨rest, foundRest, .inl ⟨term, generator, residual, rfl, rfl⟩⟩
  | .terminal ⟨term, .inverted .filter⟩ =>
      obtain ⟨rest, foundRest, equality⟩ := Refusal.bind_eq_ok_iff.mp found
      cases equality
      exact ⟨rest, foundRest, .inr ⟨term, rfl, rfl⟩⟩
  | .terminal ⟨_, .inverted (.failed _)⟩ => cases found
  | .terminal ⟨_, .recursive _ _⟩ => cases found
  | .branch _ _ => cases found
  | .sequence _ _ => cases found

/-- The base of a recursion is one generator or the join of a sequence. -/
theorem candidate_cases (found : candidate goals tree = .ok base) :
    (∃ term, tree =
      .terminal ⟨term, .inverted (.generated base.generator base.residual)⟩) ∨
    ∃ children joins parts residual, tree = .sequence children joins ∧
      gather children = .ok (parts, residual) ∧ parts ≠ [] ∧
      goals ⊆ (parts.flatMap fun part => part.pattern.vars) ∧
      base = ⟨.join parts residual goals, []⟩ := by
  match tree with
  | .terminal ⟨term, .inverted (.generated generator residual)⟩ =>
      cases found
      exact .inl ⟨term, rfl⟩
  | .terminal ⟨_, .inverted .filter⟩ => cases found
  | .terminal ⟨_, .inverted (.failed _)⟩ => cases found
  | .terminal ⟨_, .recursive _ _⟩ => cases found
  | .branch _ _ => cases found
  | .sequence children joins =>
      obtain ⟨⟨parts, residual⟩, gathered, rest⟩ :=
        Refusal.bind_eq_ok_iff.mp found
      dsimp only at rest
      split at rest
      · cases rest
      · next nonempty =>
          split at rest
          · cases rest
          · next covered =>
              cases rest
              exact .inr ⟨children, joins, parts, residual, rfl,
                gathered, by simpa using nonempty,
                find?_eq_none_iff_subset.mp covered, rfl⟩

theorem ofTree_eq_ok_iff :
    ofTree goals tree = .ok base ↔
      candidate goals tree = .ok base ∧ base.generator.isFinite = true ∧
        goals ⊆ base.generator.pattern.vars := by
  rw [ofTree]
  simp only [Refusal.bind_eq_ok_iff, Refusal.refuse_eq_ok_iff,
    Bool.not_eq_true', Bool.not_eq_false, ← find?_eq_none_iff_subset]
  constructor
  · rintro ⟨middle, found, finite, rest⟩
    split at rest
    · cases rest
    · next covered =>
        cases rest
        exact ⟨found, finite, covered⟩
  · rintro ⟨found, finite, covered⟩
    refine ⟨base, found, finite, ?_⟩
    rw [covered]
    rfl

end BaseCase

/-- A clause of a step is a recursive call, a finite relation or a test. -/
theorem StepClause.ofTree_cases {tree : AnalysisTree} {clause : StepClause}
    (found : ofTree tree = .ok clause) :
    (∃ term function argument pattern, tree =
      .terminal ⟨term, .recursive function argument⟩ ∧
      argument.toPattern? = some pattern ∧
      clause = recursive function pattern) ∨
    (∃ term generator residual,
      tree = .terminal ⟨term, .inverted (.generated generator residual)⟩ ∧
      generator.isFinite = true ∧ clause = scan generator residual) ∨
    ∃ term, tree = .terminal ⟨term, .inverted .filter⟩ ∧
      clause = filter term := by
  match tree with
  | .terminal ⟨term, .recursive function argument⟩ =>
      rw [ofTree] at found
      split at found
      · next pattern taken =>
          cases found
          exact .inl ⟨term, function, argument, pattern, rfl, taken, rfl⟩
      · cases found
  | .terminal ⟨term, .inverted (.generated generator residual)⟩ =>
      rw [ofTree] at found
      split at found
      · next finite =>
          cases found
          exact .inr (.inl ⟨term, generator, residual, rfl, finite, rfl⟩)
      · cases found
  | .terminal ⟨term, .inverted .filter⟩ =>
      cases found
      exact .inr (.inr ⟨term, rfl, rfl⟩)
  | .terminal ⟨_, .inverted (.failed _)⟩ => cases found
  | .branch _ _ => cases found
  | .sequence _ _ => cases found

namespace StepCase

variable {goals : List Name} {tree : AnalysisTree} {case : StepCase}

theorem ofTree_eq_ok_iff :
    ofTree goals tree = .ok case ↔
      ∃ children, tree = .sequence children case.joins ∧
        children.mapM StepClause.ofTree = .ok case.clauses ∧
        case.clauses.any StepClause.isScan = true ∧
        (case.clauses.flatMap StepClause.recursiveVars).any
          case.joins.contains = true ∧
        goals ⊆ case.clauses.flatMap StepClause.produced := by
  match tree with
  | .terminal _ => simp [ofTree, throw, throwThe, MonadExceptOf.throw]
  | .branch _ _ => simp [ofTree, throw, throwThe, MonadExceptOf.throw]
  | .sequence children joins =>
      rw [ofTree]
      simp only [Refusal.bind_eq_ok_iff, Refusal.refuse_eq_ok_iff,
        Bool.not_eq_true', Bool.not_eq_false, ← find?_eq_none_iff_subset]
      constructor
      · rintro ⟨clauses, mapped, scans, joined, rest⟩
        split at rest
        · cases rest
        · next covered =>
            cases rest
            exact ⟨children, rfl, mapped, scans, joined, covered⟩
      · rintro ⟨_, same, mapped, scans, joined, covered⟩
        cases same
        refine ⟨case.clauses, mapped, scans, joined, ?_⟩
        rw [covered]
        rfl

/-- A step is a sequence of clauses of which one scans and that produce all
goals. -/
theorem ofTree_cases (found : ofTree goals tree = .ok case) :
    ∃ children, tree = .sequence children case.joins ∧
      List.Forall₂ (fun child clause => StepClause.ofTree child = .ok clause)
        children case.clauses ∧
      case.clauses.any StepClause.isScan = true ∧
      goals ⊆ case.clauses.flatMap StepClause.produced := by
  obtain ⟨children, same, mapped, scans, -, covered⟩ :=
    ofTree_eq_ok_iff.mp found
  exact ⟨children, same, Refusal.mapM_eq_ok_iff.mp mapped, scans, covered⟩

end StepCase

namespace Recursion

variable {settings : Settings} {tree : AnalysisTree} {recursion : Recursion}

/-- A property that passes from both sides to concatenations. -/
theorem concatenated_of_forall {holds : Expr → Prop} (none : holds (.list []))
    (both : ∀ left right, holds left → holds right →
      holds (.binary .append left right))
    {bodies : List Expr} (all : ∀ body ∈ bodies, holds body) :
    holds (concatenated bodies) := by
  fun_induction concatenated bodies with
  | case1 => exact none
  | case2 last => exact all last List.mem_cons_self
  | case3 first rest _ induction =>
      rw [List.forall_mem_cons] at all
      exact both first _ all.1 (induction all.2)

theorem splitArms_subset {arms steps : List AnalysisTree} {base : AnalysisTree}
    (split : splitArms settings arms = .ok (base, steps)) :
    base ∈ arms ∧ steps ⊆ arms := by
  unfold splitArms at split
  split at split
  · next first second =>
      split at split
      · cases split
        simp
      · split at split
        · cases split
          simp
        · cases split
  · split at split
    · next first rest policy =>
        dsimp only at split
        split at split
        · cases split
        · split at split
          · cases split
          · cases split
            simp
    · cases split

theorem foldl_max_le_iff {calls : List Nat} {start bound : Nat} :
    calls.foldl max start ≤ bound ↔ start ≤ bound ∧
      ∀ count ∈ calls, count ≤ bound := by
  induction calls generalizing start with
  | nil => simp
  | cons count calls induction =>
      rw [List.foldl_cons, induction, Nat.max_le, List.forall_mem_cons,
        and_assoc]

theorem ofTree_eq_ok_iff {goals : List Name} :
    ofTree settings goals tree = .ok recursion ↔
      2 ≤ tree.arms.length ∧ (∀ arm ∈ tree.arms, arm.recursiveCalls ≤ 1) ∧
      (∃ arm ∈ tree.arms, arm.isRecursive = true) ∧
      ∃ base steps, splitArms settings tree.arms = .ok (base, steps) ∧
        steps.length ≤ settings.maxStepCases ∧ recursion.goals = goals ∧
        BaseCase.ofTree goals base = .ok recursion.base ∧
        steps.mapM (StepCase.ofTree goals) = .ok recursion.steps := by
  have worst (bound : Nat) :
    (tree.arms.map AnalysisTree.recursiveCalls).foldl max 0 ≤ bound ↔
      ∀ arm ∈ tree.arms, arm.recursiveCalls ≤ bound := by
    rw [foldl_max_le_iff, List.forall_mem_map]
    exact and_iff_right (Nat.zero_le bound)
  have recursive : (∃ arm ∈ tree.arms, arm.isRecursive = true) ↔
      ¬(tree.arms.map AnalysisTree.recursiveCalls).foldl max 0 = 0 := by
    rw [← Nat.le_zero, worst]
    simp [AnalysisTree.isRecursive, Nat.pos_iff_ne_zero]
  rw [ofTree, ← worst 1, recursive]
  simp only [Refusal.bind_eq_ok_iff, Refusal.refuse_eq_ok_iff, Nat.not_lt,
    gt_iff_lt]
  refine and_congr_right' (and_congr_right' (and_congr_right' ?_))
  constructor
  · rintro ⟨⟨base, steps⟩, split, limited, foundBase, read, foundSteps,
      readSteps, equality⟩
    cases equality
    exact ⟨base, steps, split, limited, rfl, read, readSteps⟩
  · rintro ⟨base, steps, split, limited, rfl, read, readSteps⟩
    exact ⟨(base, steps), split, limited, recursion.base, read, recursion.steps,
      readSteps, rfl⟩

/-- The base and the steps of a recursion are read off the arms of its tree. -/
theorem ofTree_cases {goals : List Name}
    (found : ofTree settings goals tree = .ok recursion) :
    recursion.goals = goals ∧
      (∃ arm ∈ tree.arms, BaseCase.ofTree goals arm = .ok recursion.base) ∧
      ∀ case ∈ recursion.steps, ∃ arm ∈ tree.arms, StepCase.ofTree goals arm =
        .ok case := by
  obtain ⟨-, -, -, baseArm, stepArms, split, -, sameGoals, foundBase,
    foundSteps⟩ :=
    ofTree_eq_ok_iff.mp found
  obtain ⟨baseMember, stepMembers⟩ := splitArms_subset split
  refine ⟨sameGoals, ⟨baseArm, baseMember, foundBase⟩, ?_⟩
  intro case member
  obtain ⟨arm, armMember, read⟩ :=
    Refusal.exists_of_mem_mapM foundSteps case member
  exact ⟨arm, stepMembers armMember, read⟩

end Recursion

end RecursiveQuery
