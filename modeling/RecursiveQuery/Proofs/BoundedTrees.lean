import RecursiveQuery.Proofs.CallDepth

/-!
# Bounded trees

The tree of an expression is at most as deep as the expression is large, because
clauses are smaller than what they are clauses of.  Functions are unfolded
inside the terminals and do not make it deeper.
-/

namespace RecursiveQuery

namespace AnalysisTree

variable {children : List AnalysisTree} {clauses : List Expr} {scope : Scope}

mutual

/-- A property of the children and the join variables of every sequence. -/
def EverySequence (holds : List AnalysisTree → List Name → Prop) :
    AnalysisTree → Prop
  | terminal _ => True
  | branch left right => EverySequence holds left ∧ EverySequence holds right
  | sequence children joins => holds children joins ∧
      EverySequenceIn holds children

def EverySequenceIn (holds : List AnalysisTree → List Name → Prop) :
    List AnalysisTree → Prop
  | [] => True
  | child :: children => EverySequence holds child ∧
      EverySequenceIn holds children

end

mutual

theorem goals_extend (scope : Scope) (tree : AnalysisTree) :
    (tree.extend scope).goals = scope.goals := by
  match tree with
  | terminal ⟨_, .inverted (.generated generator _)⟩ =>
      exact Scope.goals_produce
  | terminal ⟨_, .inverted .filter⟩ => rfl
  | terminal ⟨_, .inverted (.failed _)⟩ => rfl
  | terminal ⟨_, .recursive function argument⟩ =>
      rw [extend]
      split
      · exact Scope.goals_produce
      · rfl
  | branch _ _ => rfl
  | sequence children _ => exact goals_extendList scope children

theorem goals_extendList (scope : Scope) (children : List AnalysisTree) :
    (extendList scope children).goals = scope.goals := by
  match children with
  | [] => rfl
  | child :: children =>
      rw [extendList, goals_extendList (child.extend scope) children,
        goals_extend scope child]

end

/-- A tree of at most some depth whose sequences have several children and no
goals among their join variables. -/
structure IsBounded (goals : List Name) (size : Nat) (tree : AnalysisTree) :
    Prop where
  depth : tree.depth ≤ size
  sequences : tree.EverySequence fun children joins =>
    2 ≤ children.length ∧ ∀ name ∈ joins, name ∉ goals

variable {goals : List Name} {size : Nat}

theorem IsBounded.terminal {terminal : Terminal} (positive : 0 < size) :
    (AnalysisTree.terminal terminal).IsBounded goals size :=
  ⟨positive, trivial⟩

theorem IsBounded.branch {left right : AnalysisTree}
    (leftBounded : left.IsBounded goals size)
    (rightBounded : right.IsBounded goals size) :
    (AnalysisTree.branch left right).IsBounded goals (size + 1) := by
  refine ⟨?_, leftBounded.sequences, rightBounded.sequences⟩
  rw [AnalysisTree.depth, Nat.add_comm]
  exact Nat.succ_le_succ
    (Nat.max_le.mpr ⟨leftBounded.depth, rightBounded.depth⟩)

theorem depthList_le
    (bounded : ∀ child ∈ children, child.IsBounded goals size) :
    depthList children ≤ size := by
  induction children with
  | nil => exact Nat.zero_le size
  | cons child children induction =>
      rw [List.forall_mem_cons] at bounded
      exact Nat.max_le.mpr ⟨bounded.1.depth, induction bounded.2⟩

theorem everySequenceIn_of_forall {holds : List AnalysisTree → List Name → Prop}
    (all : ∀ child ∈ children, child.EverySequence holds) :
    EverySequenceIn holds children := by
  induction children with
  | nil => trivial
  | cons child children induction =>
      rw [List.forall_mem_cons] at all
      exact ⟨all.1, induction all.2⟩

theorem IsBounded.sequence {children : List AnalysisTree} {joins : List Name}
    (several : 2 ≤ children.length) (apart : ∀ name ∈ joins, name ∉ goals)
    (bounded : ∀ child ∈ children, child.IsBounded goals size) :
    (AnalysisTree.sequence children joins).IsBounded goals (size + 1) := by
  refine ⟨?_, ⟨several, apart⟩, ?_⟩
  · rw [AnalysisTree.depth, Nat.add_comm]
    exact Nat.succ_le_succ (depthList_le bounded)
  · exact everySequenceIn_of_forall fun child member =>
      (bounded child member).sequences

theorem IsBounded.mono {tree : AnalysisTree} {larger : Nat}
    (bounded : tree.IsBounded goals size) (fits : size ≤ larger) :
    tree.IsBounded goals larger :=
  ⟨Nat.le_trans bounded.depth fits, bounded.sequences⟩

variable {program : Program} {invert : Inverter} {active : List Name}

theorem leaf_bounded (scope : Scope) (expr : Expr) :
    (leaf invert active scope expr).Returns (IsBounded goals expr.size) := by
  intro supply
  rw [leaf]
  split
  · split
    · exact .terminal expr.size_pos
    · exact .terminal expr.size_pos
  · exact .terminal expr.size_pos

theorem buildEach_bounded {build : Scope → Expr → Naming AnalysisTree}
    (builds : ∀ clause ∈ clauses, ∀ scope : Scope, scope.goals = goals →
      (build scope clause).Returns (IsBounded goals size))
    (same : scope.goals = goals) :
    (buildEach build clauses scope).Returns fun children =>
      children.length = clauses.length ∧
      ∀ child ∈ children, child.IsBounded goals size := by
  induction clauses generalizing scope with
  | nil => exact fun _ => ⟨rfl, nofun⟩
  | cons clause clauses induction =>
      rw [List.forall_mem_cons] at builds
      refine .bind (builds.1 scope same) ?_
      intro child childBounded
      refine .bind
        (induction builds.2 ((goals_extend scope child).trans same)) ?_
      intro children found supply
      exact ⟨congrArg (· + 1) found.1,
        List.forall_mem_cons.mpr ⟨childBounded, found.2⟩⟩

theorem not_mem_goals_of_mem_joinVars {name : Name}
    (member : name ∈ joinVars program scope clauses) : name ∉ scope.goals := by
  have kept := (List.mem_filter.mp (Name.mem_ascending.mp member)).2
  simp only [Bool.and_eq_true, Bool.not_eq_true', Scope.isGoal] at kept
  simpa using kept.2

/-- Trees are at most as deep as expressions are large. -/
theorem buildWithin_bounded (fuel : Nat) {scope : Scope}
    (same : scope.goals = goals) (expr : Expr) :
    (buildWithin program invert active fuel scope expr).Returns
    (IsBounded goals expr.size) := by
  induction fuel generalizing scope expr with
  | zero => exact leaf_bounded scope expr
  | succ fuel induction =>
      obtain ⟨size, isSize⟩ := Nat.exists_eq_add_one.mpr expr.size_pos
      have smaller {part : Expr} (below : part.size < expr.size) {scope : Scope}
          (same : scope.goals = goals) :
          (buildWithin program invert active fuel scope part).Returns
          (IsBounded goals size) := by
        intro supply
        exact (induction same part supply).mono (by omega)
      rw [buildWithin]
      split
      · next first second rest arms =>
          obtain ⟨firstSmaller, restSmaller⟩ := Expr.size_of_disjuncts arms
          refine .bind (smaller firstSmaller same) ?_
          intro left leftBounded
          refine .bind (smaller restSmaller same) ?_
          intro right rightBounded supply
          rw [isSize]
          exact .branch leftBounded rightBounded
      · refine .bind (Scope.flatten_smaller expr) ?_
        intro clauses flattened
        rcases clauses with _ | ⟨single, _ | ⟨second, rest⟩⟩
        · exact leaf_bounded scope expr
        · dsimp only
          split
          · exact leaf_bounded scope expr
          · next different =>
              have below := flattened.resolve_left (by simpa using different)
              intro supply
              exact (induction same single supply).mono
                (Nat.le_of_lt (below single List.mem_cons_self))
        · have below := flattened.resolve_left (by simp)
          refine .bind (buildEach_bounded (fun clause member scope same =>
            smaller (below clause member) same) same) ?_
          intro children found supply
          rw [isSize]
          apply IsBounded.sequence _ _ found.2
          · rw [found.1]
            simp
          · intro name member
            rw [← same]
            exact not_mem_goals_of_mem_joinVars member

end AnalysisTree

/-- How deep calls are nested when the tree of an expression is built. -/
def Analysis.buildDepth (program : Program) (active : List Name) (expr : Expr) :
    Nat :=
  expr.size + invertDepth program (program.inactive active).card expr.size + 1

/-- Building a tree ends: calls that are nested deeper than a bound make no
difference.  The tree is at most as deep as the expression is large, and its
sequences have several children and no goals among their join variables. -/
theorem build_ends_in_bounded_tree (program : Program) (active : List Name)
    (scope : Scope) (expr : Expr) :
    (∀ stub calls, Analysis.buildDepth program active expr ≤ calls →
      ((Analysis.body program)^[calls] stub).build active scope expr =
        AnalysisTree.build program (Inversion.base program) active scope expr) ∧
    (AnalysisTree.build program (Inversion.base program) active scope
      expr).Returns fun tree =>
      tree.depth ≤ expr.size ∧ tree.EverySequence fun children joins =>
        2 ≤ children.length ∧ ∀ name ∈ joins, name ∉ scope.goals := by
  constructor
  · intro stub calls enough
    exact Analysis.build_iterate stub (Nat.le_refl _) (Nat.le_refl _) enough
      (Nat.le_refl _)
  · intro supply
    have bounded := @AnalysisTree.buildWithin_bounded scope.goals program
      (Inversion.base program) active expr.size scope rfl expr supply
    exact ⟨bounded.depth, bounded.sequences⟩

/-- Two functions that call each other on ever larger arguments. -/
def growingCalls : Program :=
  ⟨[.function "even" (.var "x")
    (.apply (.var "odd") (.tuple [.var "x", .var "x"])),
    .function "odd" (.var "x")
      (.apply (.var "even") (.tuple [.var "x", .var "x"]))]⟩

theorem build_ends_in_bounded_tree_growing :
    Analysis.buildDepth growingCalls []
      (.apply (.var "even") (.var "x")) = 340 ∧
      (∀ stub, ((Analysis.body growingCalls)^[340] stub).build []
        ⟨["x"], [], []⟩ (.apply (.var "even") (.var "x")) =
        AnalysisTree.build growingCalls (Inversion.base growingCalls) []
          ⟨["x"], [], []⟩ (.apply (.var "even") (.var "x"))) ∧
      (AnalysisTree.build growingCalls (Inversion.base growingCalls) []
        ⟨["x"], [], []⟩
        (.apply (.var "even") (.var "x"))).Returns fun tree => tree.depth ≤
        3 := by
  have enough : Analysis.buildDepth growingCalls []
    (.apply (.var "even") (.var "x")) = 340 := by
    decide +kernel
  have ends := build_ends_in_bounded_tree growingCalls [] ⟨["x"], [], []⟩
    (.apply (.var "even") (.var "x"))
  exact ⟨enough, fun stub => ends.1 stub 340 enough.le,
    fun supply => (ends.2 supply).1⟩

end RecursiveQuery
