import RecursiveQuery.Proofs.KnownInversion
import RecursiveQuery.Proofs.RecursionShape

/-!
# Transitive closures

A recursion is read off exactly the trees that have the shape of a transitive
closure: one arm is a finite relation over the goals, and each of the others
joins a single recursive call to finite relations.  The shape is a property of
the tree alone.
-/

namespace RecursiveQuery

namespace AnalysisTree

variable {settings : Settings} {first : AnalysisTree}

/-- The generator of a clause that generates rows. -/
def generator? : AnalysisTree → Option Generator
  | terminal ⟨_, .inverted (.generated generator _)⟩ => some generator
  | _ => none

/-- The argument of a recursive call. -/
def argument? : AnalysisTree → Option Expr
  | terminal ⟨_, .recursive _ argument⟩ => some argument
  | _ => none

def isTest : AnalysisTree → Bool
  | terminal ⟨_, .inverted .filter⟩ => true
  | _ => false

/-- The generators of some clauses. -/
def generators (children : List AnalysisTree) : List Generator :=
  children.filterMap generator?

/-- A finite relation that binds the goals. -/
inductive IsBase (goals : List Name) : AnalysisTree → Prop where
  | generated {term : Expr} {generator : Generator} {residual : List Expr}
      (finite : generator.isFinite = true)
      (binds : goals ⊆ generator.pattern.vars) :
      IsBase goals (terminal ⟨term, .inverted (.generated generator residual)⟩)
  | joined {children : List AnalysisTree} {joins : List Name}
      (plain : ∀ child ∈ children, child.generator?.isSome = true ∨
        child.isTest = true)
      (nonempty : generators children ≠ [])
      (finite : ∀ generator ∈ generators children, generator.isFinite = true)
      (binds : ∀ goal ∈ goals, ∃ generator ∈ generators children,
        goal ∈ generator.pattern.vars) :
      IsBase goals (sequence children joins)

/-- A recursive call and finite relations that share a variable with it and
together bind the goals. -/
structure JoinsCall (goals joins : List Name) (scanned : List Generator)
    (call : Pattern) : Prop where
  nonempty : scanned ≠ []
  finite : ∀ generator ∈ scanned, generator.isFinite = true
  shares : ∃ name ∈ call.vars, name ∈ joins
  binds : ∀ goal ∈ goals, goal ∈ call.vars ∨ ∃ generator ∈ scanned,
    goal ∈ generator.pattern.vars

/-- Clauses that join a single recursive call to finite relations. -/
inductive IsStep (goals : List Name) : AnalysisTree → Prop where
  | joined {children : List AnalysisTree} {joins : List Name} {argument : Expr}
      {call : Pattern}
      (clauses : ∀ child ∈ children, child.argument?.isSome = true ∨
        child.generator?.isSome = true ∨ child.isTest = true)
      (single : children.filterMap argument? = [argument])
      (taken : argument.toPattern? = some call)
      (joinsCall : JoinsCall goals joins (generators children) call) :
      IsStep goals (sequence children joins)

/-- One of some arms is the base: either of two, or the first one of more if the
policy allows that. -/
structure HasOneBase (settings : Settings) (arms : List AnalysisTree) :
    Prop where
  ofTwo : arms.length = 2 → arms.countP isRecursive = 1
  ofMore : 2 < arms.length → settings.disjunctionPolicy = .firstArmBase ∧
    ∃ first rest, arms = first :: rest ∧ first.isRecursive = false ∧
      ∀ arm ∈ rest, arm.isRecursive = true

theorem hasOneBase_two {second : AnalysisTree} :
    HasOneBase settings [first, second] ↔
      [first, second].countP isRecursive = 1 := by
  constructor
  · intro oneBase
    exact oneBase.ofTwo rfl
  · intro single
    exact ⟨fun _ => single, fun more => absurd more (Nat.lt_irrefl 2)⟩

theorem hasOneBase_more {rest : List AnalysisTree} (more : 2 ≤ rest.length) :
    HasOneBase settings (first :: rest) ↔
      settings.disjunctionPolicy = .firstArmBase ∧ first.isRecursive = false ∧
        ∀ arm ∈ rest, arm.isRecursive = true := by
  constructor
  · intro oneBase
    obtain ⟨policy, _, _, same, plain, recursive⟩ :=
      oneBase.ofMore (Nat.lt_succ_of_le more)
    cases same
    exact ⟨policy, plain, recursive⟩
  · intro ⟨policy, plain, recursive⟩
    refine ⟨fun two => ?_,
      fun _ => ⟨policy, first, rest, rfl, plain, recursive⟩⟩
    rw [List.length_cons] at two
    omega

theorem HasOneBase.exists_base {arms : List AnalysisTree}
    (oneBase : HasOneBase settings arms) (several : 2 ≤ arms.length) :
    ∃ base, (arms.filter fun arm => !arm.isRecursive) = [base] := by
  rw [← List.length_eq_one_iff, ← List.countP_eq_length_filter]
  rcases Nat.eq_or_lt_of_le several with two | more
  · obtain ⟨first, second, rfl⟩ := List.length_eq_two.mp two.symm
    have single := oneBase.ofTwo rfl
    cases firstCalls : first.isRecursive <;>
      cases secondCalls : second.isRecursive <;>
      simp_all
  · obtain ⟨-, first, rest, rfl, plain, recursive⟩ := oneBase.ofMore more
    have none : rest.countP (fun arm => !arm.isRecursive) = 0 := by
      simpa [List.countP_eq_zero] using recursive
    rw [List.countP_cons_of_pos (by simp [plain]), none]

theorem recursiveCalls_eq_one {arm : AnalysisTree}
    (linear : arm.recursiveCalls ≤ 1) (recursive : arm.isRecursive = true) :
    arm.recursiveCalls = 1 :=
  Nat.le_antisymm linear (of_decide_eq_true recursive)

/-- The shape of a transitive closure. -/
structure IsClosure (settings : Settings) (goals : List Name)
    (tree : AnalysisTree) : Prop where
  disjunction : 2 ≤ tree.arms.length
  linear : ∀ arm ∈ tree.arms, arm.recursiveCalls ≤ 1
  recursive : ∃ arm ∈ tree.arms, arm.recursiveCalls = 1
  oneBase : HasOneBase settings tree.arms
  limited : tree.arms.countP isRecursive ≤ settings.maxStepCases
  base : ∀ arm ∈ tree.arms, arm.isRecursive = false → arm.IsBase goals
  steps : ∀ arm ∈ tree.arms, arm.isRecursive = true → arm.IsStep goals

end AnalysisTree

open AnalysisTree

theorem exists_forall₂_iff {α β : Type} {related : α → β → Prop}
    {items : List α} : (∃ results, List.Forall₂ related items results) ↔
      ∀ item ∈ items, ∃ result, related item result := by
  induction items with
  | nil => simp
  | cons item items induction =>
      rw [List.forall_mem_cons, ← induction]
      constructor
      · rintro ⟨_, pairs⟩
        cases pairs with
        | cons first rest => exact ⟨⟨_, first⟩, _, rest⟩
      · rintro ⟨⟨result, first⟩, results, rest⟩
        exact ⟨result :: results, .cons first rest⟩

namespace BaseCase

variable {children : List AnalysisTree}

theorem gather_eq_ok {gathered : List Generator × List Expr}
    (found : gather children = .ok gathered) :
    (∀ child ∈ children, child.generator?.isSome = true ∨ child.isTest = true) ∧
      gathered.1 = generators children := by
  induction children generalizing gathered with
  | nil =>
      cases found
      exact ⟨nofun, rfl⟩
  | cons child children induction =>
      obtain ⟨rest, foundRest, cases⟩ := gather_cons_cases found
      obtain ⟨plain, parts⟩ := induction foundRest
      rw [List.forall_mem_cons]
      rcases cases with ⟨term, generator, residual, rfl, rfl⟩ | ⟨term, rfl, rfl⟩
      · exact ⟨⟨.inl rfl, plain⟩, congrArg (generator :: ·) parts⟩
      · exact ⟨⟨.inr rfl, plain⟩, parts⟩

theorem exists_gather
    (plain : ∀ child ∈ children, child.generator?.isSome = true ∨
      child.isTest = true) :
    ∃ gathered, gather children = .ok gathered := by
  induction children with
  | nil => exact ⟨_, rfl⟩
  | cons child children induction =>
      rw [List.forall_mem_cons] at plain
      obtain ⟨rest, foundRest⟩ := induction plain.2
      match child, plain.1 with
      | .terminal ⟨term, .inverted (.generated generator residual)⟩, _ =>
          rw [gather, foundRest]
          exact ⟨_, rfl⟩
      | .terminal ⟨term, .inverted .filter⟩, _ =>
          rw [gather, foundRest]
          exact ⟨_, rfl⟩

theorem exists_ofTree_iff {goals : List Name} {tree : AnalysisTree} :
    (∃ base, ofTree goals tree = .ok base) ↔ tree.IsBase goals := by
  constructor
  · rintro ⟨base, found⟩
    obtain ⟨candidate, finite, covered⟩ := ofTree_eq_ok_iff.mp found
    rcases candidate_cases candidate with
      ⟨term, rfl⟩ |
      ⟨children, joins, parts, residual, rfl, gathered, nonempty, binds, rfl⟩
    · exact .generated finite covered
    · obtain ⟨plain, rfl⟩ := gather_eq_ok gathered
      refine .joined plain nonempty (Generator.isFinite_join.mp finite) ?_
      intro goal member
      exact List.mem_flatMap.mp (binds member)
  · intro isBase
    cases isBase with
    | @generated term generator residual finite binds =>
        exact ⟨⟨generator, residual⟩, ofTree_eq_ok_iff.mpr ⟨rfl, finite, binds⟩⟩
    | @joined children joins plain nonempty finite binds =>
        obtain ⟨⟨parts, residual⟩, gathered⟩ := exists_gather plain
        obtain rfl : parts = generators children := (gather_eq_ok gathered).2
        have covered : goals ⊆ (generators children).flatMap fun part =>
          part.pattern.vars :=
          fun goal member => List.mem_flatMap.mpr (binds goal member)
        refine ⟨⟨.join (generators children) residual goals, []⟩,
          ofTree_eq_ok_iff.mpr ⟨?_, Generator.isFinite_join.mpr finite, ?_⟩⟩
        · rw [candidate, gathered]
          simp only [bind, Except.bind, List.isEmpty_iff, nonempty, if_false,
            find?_eq_none_iff_subset.mpr covered]
          rfl
        · intro goal member
          rw [Pattern.mem_vars, Generator.join, Pattern.occurrences_row]
          exact member

end BaseCase

namespace StepClause

variable {tree : AnalysisTree} {call : Pattern} {name : Name}

/-- What a clause of a step is read off. -/
inductive Reads : AnalysisTree → StepClause → Prop where
  | recursive {term : Expr} {function : Name} {argument : Expr}
      {pattern : Pattern} (taken : argument.toPattern? = some pattern) :
      Reads (.terminal ⟨term, .recursive function argument⟩)
        (.recursive function pattern)
  | scan {term : Expr} {generator : Generator} {residual : List Expr}
      (finite : generator.isFinite = true) :
      Reads (.terminal ⟨term, .inverted (.generated generator residual)⟩)
        (.scan generator residual)
  | filter {term : Expr} :
      Reads (.terminal ⟨term, .inverted .filter⟩) (.filter term)

def generator? : StepClause → Option Generator
  | scan generator _ => some generator
  | _ => none

/-- The argument of a recursive call. -/
def argument? : StepClause → Option Pattern
  | recursive _ argument => some argument
  | _ => none

theorem ofTree_eq_ok_iff {clause : StepClause} :
    ofTree tree = .ok clause ↔ Reads tree clause := by
  constructor
  · intro found
    rcases ofTree_cases found with
      ⟨term, function, argument, pattern, rfl, taken, rfl⟩ |
      ⟨term, generator, residual, rfl, finite, rfl⟩ | ⟨term, rfl, rfl⟩
    · exact .recursive taken
    · exact .scan finite
    · exact .filter
  · intro reads
    cases reads with
    | recursive taken => rw [ofTree, taken]; rfl
    | scan finite => rw [ofTree, if_pos finite]; rfl
    | filter => rfl

/-- The clauses that are read are recursive calls of patterns, finite relations
and tests. -/
theorem exists_reads_iff :
    (∃ clause, Reads tree clause) ↔
      (tree.argument?.isSome = true ∨ tree.generator?.isSome = true ∨
        tree.isTest = true) ∧
        (∀ argument ∈ tree.argument?, argument.toPattern?.isSome = true) ∧
        ∀ generator ∈ tree.generator?, generator.isFinite = true := by
  constructor
  · rintro ⟨clause, reads⟩
    cases reads with
    | recursive taken =>
        simp [AnalysisTree.argument?, AnalysisTree.generator?, taken]
    | scan finite =>
        simp [AnalysisTree.argument?, AnalysisTree.generator?, finite]
    | filter =>
        simp [AnalysisTree.argument?, AnalysisTree.generator?,
          AnalysisTree.isTest]
  · rintro ⟨isClause, taken, finite⟩
    match tree with
    | .terminal ⟨term, .recursive function argument⟩ =>
        obtain ⟨pattern, taken⟩ :=
          Option.isSome_iff_exists.mp (taken argument rfl)
        exact ⟨_, .recursive taken⟩
    | .terminal ⟨term, .inverted (.generated generator residual)⟩ =>
        exact ⟨_, .scan (finite generator rfl)⟩
    | .terminal ⟨term, .inverted .filter⟩ => exact ⟨_, .filter⟩

variable {children : List AnalysisTree} {clauses : List StepClause}

theorem generators_of_reads (reads : List.Forall₂ Reads children clauses) :
    clauses.filterMap generator? = generators children := by
  induction reads with
  | nil => rfl
  | cons first _ induction =>
      cases first with
      | recursive _ => exact induction
      | scan _ => exact congrArg (_ :: ·) induction
      | filter => exact induction

theorem arguments_of_reads (reads : List.Forall₂ Reads children clauses) :
    List.Forall₂ (fun argument pattern => argument.toPattern? = some pattern)
      (children.filterMap AnalysisTree.argument?)
        (clauses.filterMap argument?) := by
  induction reads with
  | nil => exact .nil
  | cons first _ induction =>
      cases first with
      | recursive taken => exact .cons taken induction
      | scan _ => exact induction
      | filter => exact induction

/-- A single recursive call is read as one. -/
theorem single_call_iff (reads : List.Forall₂ Reads children clauses) :
    clauses.filterMap argument? = [call] ↔
      ∃ argument, children.filterMap AnalysisTree.argument? = [argument] ∧
        argument.toPattern? = some call := by
  have arguments := arguments_of_reads reads
  constructor
  · intro single
    rw [single, List.forall₂_cons_right_iff] at arguments
    obtain ⟨argument, others, taken, none, same⟩ := arguments
    cases none
    exact ⟨argument, same, taken⟩
  · rintro ⟨argument, single, taken⟩
    rw [single, List.forall₂_cons_left_iff] at arguments
    obtain ⟨pattern, others, alsoTaken, none, same⟩ := arguments
    cases none
    cases taken.symm.trans alsoTaken
    exact same

theorem recursiveCalls_of_reads (reads : List.Forall₂ Reads children clauses) :
    recursiveCallsList children = (clauses.filterMap argument?).length := by
  induction reads with
  | nil => rfl
  | cons first _ induction =>
      rw [recursiveCallsList, induction]
      cases first with
      | recursive _ => exact Nat.add_comm _ _
      | scan _ => exact Nat.zero_add _
      | filter => exact Nat.zero_add _

theorem exists_forall₂_reads_iff :
    (∃ clauses, List.Forall₂ Reads children clauses) ↔
      (∀ child ∈ children, child.argument?.isSome = true ∨
        child.generator?.isSome = true ∨ child.isTest = true) ∧
      (∀ argument ∈ children.filterMap AnalysisTree.argument?,
        argument.toPattern?.isSome = true) ∧
      ∀ generator ∈ generators children, generator.isFinite = true := by
  simp only [exists_forall₂_iff, exists_reads_iff, forall_and, generators,
    List.forall_mem_filterMap, Option.mem_def]

theorem any_isScan_iff :
    clauses.any isScan = true ↔ clauses.filterMap generator? ≠ [] := by
  induction clauses with
  | nil => simp
  | cons clause clauses induction =>
      cases clause with
      | scan _ _ => simp [isScan, generator?]
      | filter _ => exact induction
      | recursive _ _ => exact induction

theorem mem_recursiveVars_iff :
    name ∈ clauses.flatMap recursiveVars ↔
      ∃ call ∈ clauses.filterMap argument?, name ∈ call.vars := by
  induction clauses with
  | nil => simp
  | cons clause clauses induction =>
      cases clause with
      | scan _ _ => exact induction
      | filter _ => exact induction
      | recursive _ _ => simp [recursiveVars, argument?, induction]

theorem mem_produced_iff :
    name ∈ clauses.flatMap produced ↔
      (∃ call ∈ clauses.filterMap argument?, name ∈ call.vars) ∨
        ∃ generator ∈ clauses.filterMap generator?, name ∈
          generator.pattern.vars := by
  induction clauses with
  | nil => simp
  | cons clause clauses induction =>
      rw [List.flatMap_cons, List.mem_append, induction]
      cases clause with
      | scan generator _ => simp [produced, argument?, generator?, or_left_comm]
      | filter _ => simp [produced, argument?, generator?]
      | recursive _ call => simp [produced, argument?, generator?, or_assoc]

theorem joinsCall_iff {goals joins : List Name}
    (single : clauses.filterMap argument? = [call]) :
    JoinsCall goals joins (clauses.filterMap generator?) call ↔
      (∀ generator ∈ clauses.filterMap generator?, generator.isFinite = true) ∧
        clauses.any isScan = true ∧
        (clauses.flatMap recursiveVars).any joins.contains = true ∧
        goals ⊆ clauses.flatMap produced := by
  have shared : (clauses.flatMap recursiveVars).any joins.contains = true ↔
      ∃ name ∈ call.vars, name ∈ joins := by
    simp only [List.any_eq_true, mem_recursiveVars_iff, single,
      List.mem_singleton, exists_eq_left, List.contains_iff_mem]
  have bound : goals ⊆ clauses.flatMap produced ↔ ∀ goal ∈ goals,
      goal ∈ call.vars ∨ ∃ generator ∈ clauses.filterMap generator?,
        goal ∈ generator.pattern.vars := by
    simp only [List.subset_def, mem_produced_iff, single, List.mem_singleton,
      exists_eq_left]
  rw [any_isScan_iff, shared, bound]
  constructor
  · intro joinsCall
    exact ⟨joinsCall.finite, joinsCall.nonempty, joinsCall.shares,
      joinsCall.binds⟩
  · intro ⟨finite, nonempty, shares, binds⟩
    exact ⟨nonempty, finite, shares, binds⟩

end StepClause

namespace StepCase

variable {goals : List Name} {tree : AnalysisTree}

/-- A step has the clauses and the join variables of a sequence. -/
def Reads (tree : AnalysisTree) (step : StepCase) : Prop :=
  ∃ children, tree = .sequence children step.joins ∧
    List.Forall₂ StepClause.Reads children step.clauses

/-- A single recursive call of a step is joined to finite relations. -/
def IsLinear (goals : List Name) (step : StepCase) : Prop :=
  ∃ call, step.clauses.filterMap StepClause.argument? = [call] ∧
    JoinsCall goals step.joins
      (step.clauses.filterMap StepClause.generator?) call

theorem ofTree_eq_ok_iff_reads {step : StepCase}
    (linear : tree.recursiveCalls = 1) :
    ofTree goals tree = .ok step ↔ Reads tree step ∧ step.IsLinear goals := by
  have mapped (children : List AnalysisTree) :
      children.mapM StepClause.ofTree = .ok step.clauses ↔
        List.Forall₂ StepClause.Reads children step.clauses := by
    simp only [Refusal.mapM_eq_ok_iff, StepClause.ofTree_eq_ok_iff]
  simp only [ofTree_eq_ok_iff, mapped]
  constructor
  · rintro ⟨children, rfl, reads, conditions⟩
    have count : (step.clauses.filterMap StepClause.argument?).length = 1 := by
      rw [← StepClause.recursiveCalls_of_reads reads]
      exact linear
    obtain ⟨call, single⟩ := List.length_eq_one_iff.mp count
    have finite := (StepClause.exists_forall₂_reads_iff.mp ⟨_, reads⟩).2.2
    rw [← StepClause.generators_of_reads reads] at finite
    exact ⟨⟨children, rfl, reads⟩, call, single,
      (StepClause.joinsCall_iff single).mpr ⟨finite, conditions⟩⟩
  · rintro ⟨⟨children, rfl, reads⟩, call, single, joinsCall⟩
    exact ⟨children, rfl, reads,
      ((StepClause.joinsCall_iff single).mp joinsCall).2⟩

/-- Steps are read off the trees that have the shape of one. -/
theorem exists_ofTree_iff (linear : tree.recursiveCalls = 1) :
    (∃ step, ofTree goals tree = .ok step) ↔ tree.IsStep goals := by
  simp only [ofTree_eq_ok_iff_reads linear]
  constructor
  · rintro ⟨⟨clauses, joins⟩, ⟨children, rfl, reads⟩, call, single, joinsCall⟩
    obtain ⟨argument, singleArgument, taken⟩ :=
      (StepClause.single_call_iff reads).mp single
    rw [StepClause.generators_of_reads reads] at joinsCall
    have isClause := (StepClause.exists_forall₂_reads_iff.mp ⟨_, reads⟩).1
    exact .joined isClause singleArgument taken joinsCall
  · intro isStep
    cases isStep with
    | @joined children joins argument call isClause single taken joinsCall =>
        have arguments : ∀ argument ∈ children.filterMap AnalysisTree.argument?,
            argument.toPattern?.isSome = true := by
          simp [single, taken]
        obtain ⟨clauses, reads⟩ := StepClause.exists_forall₂_reads_iff.mpr
          ⟨isClause, arguments, joinsCall.finite⟩
        rw [← StepClause.generators_of_reads reads] at joinsCall
        have singleCall :=
          (StepClause.single_call_iff reads).mpr ⟨argument, single, taken⟩
        exact ⟨⟨clauses, joins⟩, ⟨children, rfl, reads⟩, call, singleCall,
          joinsCall⟩

end StepCase

namespace Recursion

variable {settings : Settings} {arms steps : List AnalysisTree}
  {base : AnalysisTree}
variable {first tree : AnalysisTree} {recursion : Recursion}

theorem splitArms_two {second : AnalysisTree} :
    splitArms settings [first, second] = .ok (base, steps) ↔
      (first.isRecursive = false ∧ first = base ∧ [second] = steps) ∨
        (first.isRecursive = true ∧ second.isRecursive = false ∧ second = base ∧
          [first] = steps) := by
  rw [splitArms]
  cases firstCalls : first.isRecursive <;>
    cases secondCalls : second.isRecursive <;>
    simp [pure, Except.pure, throw, throwThe, MonadExceptOf.throw]

theorem splitArms_more {rest : List AnalysisTree} (more : 2 ≤ rest.length) :
    splitArms settings (first :: rest) = .ok (base, steps) ↔
      settings.disjunctionPolicy = .firstArmBase ∧ first.isRecursive = false ∧
        (∀ arm ∈ rest, arm.isRecursive = true) ∧ first = base ∧
        rest = steps := by
  have notTwo : ∀ second, rest ≠ [second] := by
    rintro second rfl
    simp at more
  have plain : (rest.findIdx? fun arm => !arm.isRecursive) = none ↔
      ∀ arm ∈ rest, arm.isRecursive = true := by
    simp [List.findIdx?_eq_none_iff]
  rw [splitArms.eq_def]
  split
  · next same => exact absurd (List.cons.inj same).2 (notTwo _)
  · cases policy : settings.disjunctionPolicy with
    | binaryOnly => simp [throw, throwThe, MonadExceptOf.throw]
    | firstArmBase =>
        simp only [Refusal.refuse_eq_ok_iff, true_and, Bool.not_eq_true,
          ← plain]
        apply and_congr_right'
        split
        · next found => simp [found, throw, throwThe, MonadExceptOf.throw]
        · next found => simp [found, pure, Except.pure]

/-- Arms are split into the ones with and without recursive call. -/
theorem splitArms_eq_ok_iff (several : 2 ≤ arms.length)
    (recursive : ∃ arm ∈ arms, arm.isRecursive = true) :
    splitArms settings arms = .ok (base, steps) ↔
      HasOneBase settings arms ∧
      (arms.filter fun arm => !arm.isRecursive) = [base] ∧
        arms.filter isRecursive = steps := by
  match arms with
  | [first, second] =>
      rw [splitArms_two, hasOneBase_two]
      cases firstCalls : first.isRecursive with
      | false =>
          cases secondCalls : second.isRecursive with
          | false => simp [firstCalls, secondCalls] at recursive
          | true => simp [firstCalls, secondCalls]
      | true =>
          cases secondCalls : second.isRecursive <;>
            simp [firstCalls, secondCalls]
  | first :: second :: third :: rest =>
      have more : 2 ≤ (second :: third :: rest).length := by simp
      generalize second :: third :: rest = others at more ⊢
      rw [splitArms_more more, hasOneBase_more more, and_assoc, and_assoc]
      apply and_congr_right'
      apply and_congr_right
      intro plain
      apply and_congr_right
      intro recursive
      have none : (others.filter fun arm => !arm.isRecursive) = [] := by
        simpa using recursive
      rw [List.filter_cons_of_pos (by simp [plain]), none,
        List.filter_cons_of_neg (by simp [plain]),
        List.filter_eq_self.mpr recursive]
      simp

/-- A recursion has the base and the steps of the arms. -/
theorem ofTree_eq_ok_iff_arms {goals : List Name} :
    ofTree settings goals tree = .ok recursion ↔
      2 ≤ tree.arms.length ∧ (∀ arm ∈ tree.arms, arm.recursiveCalls ≤ 1) ∧
      (∃ arm ∈ tree.arms, arm.isRecursive = true) ∧
      HasOneBase settings tree.arms ∧
      tree.arms.countP isRecursive ≤ settings.maxStepCases ∧
      recursion.goals = goals ∧
      (∃ base, (tree.arms.filter fun arm => !arm.isRecursive) = [base] ∧
        BaseCase.ofTree goals base = .ok recursion.base) ∧
      List.Forall₂ (fun arm step => StepCase.ofTree goals arm = .ok step)
        (tree.arms.filter isRecursive) recursion.steps := by
  rw [ofTree_eq_ok_iff, List.countP_eq_length_filter]
  refine and_congr_right fun several =>
    and_congr_right' (and_congr_right fun recursive => ?_)
  simp only [splitArms_eq_ok_iff several recursive, Refusal.mapM_eq_ok_iff]
  constructor
  · rintro ⟨base, _, ⟨oneBase, single, rfl⟩, limited, sameGoals, foundBase,
      foundSteps⟩
    exact ⟨oneBase, limited, sameGoals, ⟨base, single, foundBase⟩, foundSteps⟩
  · rintro ⟨oneBase, limited, sameGoals, ⟨base, single, foundBase⟩, foundSteps⟩
    exact ⟨base, _, ⟨oneBase, single, rfl⟩, limited, sameGoals, foundBase,
      foundSteps⟩

theorem isClosure_of_ofTree {goals : List Name}
    (found : ofTree settings goals tree = .ok recursion) :
    tree.IsClosure settings goals := by
  obtain ⟨several, linear, ⟨arm, member, recursive⟩, oneBase, limited, -,
    ⟨base, single, foundBase⟩, foundSteps⟩ := ofTree_eq_ok_iff_arms.mp found
  refine ⟨several, linear,
    ⟨arm, member, recursiveCalls_eq_one (linear arm member) recursive⟩,
    oneBase, limited, ?_, ?_⟩
  · intro arm member plain
    have isBase : arm ∈ tree.arms.filter fun arm => !arm.isRecursive := by
      simp [member, plain]
    rw [single, List.mem_singleton] at isBase
    rw [isBase]
    exact BaseCase.exists_ofTree_iff.mp ⟨_, foundBase⟩
  · intro arm member recursive
    have isStep : arm ∈ tree.arms.filter isRecursive :=
      List.mem_filter.mpr ⟨member, recursive⟩
    have calls := recursiveCalls_eq_one (linear arm member) recursive
    exact (StepCase.exists_ofTree_iff calls).mp
      (exists_forall₂_iff.mp ⟨_, foundSteps⟩ arm isStep)

theorem exists_ofTree_of_isClosure {goals : List Name}
    (closure : tree.IsClosure settings goals) :
    ∃ recursion, ofTree settings goals tree = .ok recursion := by
  obtain ⟨base, single⟩ := closure.oneBase.exists_base closure.disjunction
  have isBase : base ∈ tree.arms.filter fun arm => !arm.isRecursive := by
    rw [single]
    exact List.mem_singleton_self base
  have foundBase : ∃ relation, BaseCase.ofTree goals base = .ok relation := by
    rw [List.mem_filter, Bool.not_eq_true'] at isBase
    exact BaseCase.exists_ofTree_iff.mpr (closure.base base isBase.1 isBase.2)
  have foundSteps : ∃ steps,
    List.Forall₂ (fun arm step => StepCase.ofTree goals arm = .ok step)
      (tree.arms.filter isRecursive) steps := by
    rw [exists_forall₂_iff]
    intro arm isStep
    obtain ⟨member, recursive⟩ := List.mem_filter.mp isStep
    have calls := recursiveCalls_eq_one (closure.linear arm member) recursive
    exact (StepCase.exists_ofTree_iff calls).mpr
      (closure.steps arm member recursive)
  obtain ⟨relation, foundBase⟩ := foundBase
  obtain ⟨steps, foundSteps⟩ := foundSteps
  obtain ⟨arm, member, calls⟩ := closure.recursive
  have recursive : arm.isRecursive = true := decide_eq_true (by omega)
  exact ⟨⟨goals, relation, steps⟩, ofTree_eq_ok_iff_arms.mpr
    ⟨closure.disjunction, closure.linear, ⟨arm, member, recursive⟩,
      closure.oneBase,
      closure.limited, rfl, ⟨base, single, foundBase⟩, foundSteps⟩⟩

theorem reads_of_ofTree {goals : List Name}
    (found : ofTree settings goals tree = .ok recursion) :
    List.Forall₂ (fun arm step => StepCase.Reads arm step ∧ step.IsLinear goals)
      (tree.arms.filter isRecursive) recursion.steps := by
  obtain ⟨-, linear, -, -, -, -, -, foundSteps⟩ :=
    ofTree_eq_ok_iff_arms.mp found
  have calls : ∀ arm ∈ tree.arms.filter isRecursive, arm.recursiveCalls =
    1 := by
    intro arm isStep
    obtain ⟨member, recursive⟩ := List.mem_filter.mp isStep
    exact recursiveCalls_eq_one (linear arm member) recursive
  refine ((List.forall₂_and_left _ _).mpr ⟨calls, foundSteps⟩).imp ?_
  intro arm step ⟨calls, foundStep⟩
  exact (StepCase.ofTree_eq_ok_iff_reads calls).mp foundStep

end Recursion

/-- A recursion is read off a tree if and only if the tree has the shape of a
transitive closure.  Its base is a finite relation that binds the goals, and
each of its steps has the clauses of one recursive arm, which join a single
recursive call to finite relations. -/
theorem recursion_iff_isClosure (settings : Settings) (goals : List Name)
    (tree : AnalysisTree) :
    ((∃ recursion, Recursion.ofTree settings goals tree = .ok recursion) ↔
      tree.IsClosure settings goals) ∧
    ∀ recursion, Recursion.ofTree settings goals tree = .ok recursion →
      recursion.goals = goals ∧ recursion.base.generator.isFinite = true ∧
      goals ⊆ recursion.base.generator.pattern.vars ∧
      List.Forall₂
        (fun arm step => StepCase.Reads arm step ∧ step.IsLinear goals)
        (tree.arms.filter isRecursive) recursion.steps := by
  constructor
  · constructor
    · intro found
      obtain ⟨recursion, found⟩ := found
      exact Recursion.isClosure_of_ofTree found
    · exact Recursion.exists_ofTree_of_isClosure
  · intro recursion found
    obtain ⟨-, -, -, -, -, sameGoals, base, -⟩ :=
      Recursion.ofTree_eq_ok_iff_arms.mp found
    obtain ⟨_, -, foundBase⟩ := base
    obtain ⟨-, finite, binds⟩ := BaseCase.ofTree_eq_ok_iff.mp foundBase
    exact ⟨sameGoals, finite, binds, Recursion.reads_of_ofTree found⟩

/-- The tree of the paths along finitely many edges. -/
def edgePaths : AnalysisTree :=
  .branch
    (.terminal ⟨.binary .member (.row ["x", "y"]) (.var "edges"), .inverted
      (.generated ⟨.row ["x", "y"], .var "edges", .list, .finite⟩ [])⟩)
    (.sequence
      [.terminal ⟨.binary .member (.row ["x", "z"]) (.var "edges"), .inverted
        (.generated ⟨.row ["x", "z"], .var "edges", .list, .finite⟩ [])⟩,
      .terminal ⟨.apply (.var "path") (.row ["z", "y"]),
        .recursive "path" (.row ["z", "y"])⟩]
      ["z"])

theorem recursion_iff_isClosure_edges :
    ∃ recursion, Recursion.ofTree {} ["x", "y"] edgePaths = .ok recursion ∧
      edgePaths.IsClosure {} ["x", "y"] ∧
      recursion.base.generator.isFinite = true ∧
      ∃ step, recursion.steps = [step] ∧ step.IsLinear ["x", "y"] := by
  refine ⟨_, rfl, (recursion_iff_isClosure {} ["x", "y"] edgePaths).1.mp
    ⟨_, rfl⟩, rfl, _, rfl, ?_⟩
  obtain ⟨-, -, -, steps⟩ :=
    (recursion_iff_isClosure {} ["x", "y"] edgePaths).2 _ rfl
  obtain ⟨_, _, ⟨-, linear⟩, -⟩ := List.forall₂_cons_right_iff.mp steps
  exact linear

end RecursiveQuery
