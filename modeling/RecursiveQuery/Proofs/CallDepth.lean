import Mathlib.Data.Finset.Card
import Mathlib.Logic.Function.Iterate
import RecursiveQuery.Inversion.Tree
import RecursiveQuery.Proofs.ClauseSizes
import RecursiveQuery.Proofs.InversionCases

/-!
# Nested calls of the analysis

Flattening, inversion and tree building call themselves and each other, and
nothing in their bodies bounds how deep.  Still the calls are nested at most as
deep as the inactive functions and the size of the expression allow: whatever
calls that are nested deeper would return, the answer is the same.
-/

namespace RecursiveQuery

variable {size : Nat}

/-- The functions of the analysis, which call each other. -/
structure Analysis where
  flatten : Scope → Expr → (taken : List Name) → Naming (List Expr × List Name)
  invert : Inverter
  build : (active : List Name) → Scope → Expr → Naming AnalysisTree

namespace Analysis

section Bodies

variable (program : Program) (self : Analysis)

/-! The bodies of the functions, whose calls are answered by other ones. -/

def flattenBody (scope : Scope) (expr : Expr) (taken : List Name) :
    Naming (List Expr × List Name) :=
  Scope.flattenEach
    (fun conjunct taken => do
      match conjunct with
      | .existence query =>
          match ← scope.unwrap program query taken with
          | (none, taken) => return ([conjunct], taken)
          | (some clauses, taken) =>
              Scope.flattenEach (self.flatten scope) clauses taken
      | other => return ([other], taken))
    expr.conjuncts taken

/-- The clauses of an expression. -/
def clauses (scope : Scope) (expr : Expr) : Naming (List Expr) := do
  let (clauses, _) ← self.flatten scope expr expr.freeVars
  return clauses

/-- Invert a condition clause by clause so that it produces some outputs. -/
def invertCondition (active : List Name) (scope : Scope) (body : Expr)
    (outputs : List Name) : Naming Inversion := do
  if body.disjuncts.length > 1 then return .failed (.disjunctiveBody body)
  else
    match ← self.clauses scope body with
    | [single] =>
        if single = body && Inversion.isCompound body then
          return .failed (.unsupported body)
        else self.invert active scope single
    | clauses =>
        match ← Inversion.joinClauses (self.invert active) clauses
          ⟨scope, [], []⟩ with
        | .ok joined => return Inversion.ofJoined outputs joined
        | .error obstacle => return .failed obstacle

def invertBody (active : List Name) (scope : Scope) (term : Expr) :
    Naming Inversion :=
  let locals := scope.locals program term
  if locals.all scope.isBound then return .filter
  else
    let outputs := scope.unboundInOrder term locals
    match term with
    | .binary .member left right => Inversion.ofMember program scope left right
    | .binary .eq left right =>
        Inversion.ofEquality program scope term left right
    | .andAlso _ _
    | .existence _ => self.invertCondition active scope term outputs
    | .apply (.var function) argument =>
        Inversion.ofCall program
          (fun function => self.invertCondition (function :: active))
          active scope term function argument outputs
    | _ => return .failed (.unsupported term)

def buildBody (active : List Name) (scope : Scope) (expr : Expr) :
    Naming AnalysisTree := do
  match expr.disjuncts with
  | first :: second :: rest =>
      let left ← self.build active scope first
      let right ← self.build active scope (.disjunction second rest)
      return .branch left right
  | _ =>
      match ← self.clauses scope expr with
      | [] => AnalysisTree.leaf self.invert active scope expr
      | [single] =>
          if single = expr then AnalysisTree.leaf self.invert active scope expr
          else self.build active scope single
      | clauses =>
          let joins := AnalysisTree.joinVars program scope clauses
          let children ← AnalysisTree.buildEach (self.build active) clauses
            (scope.withJoins joins)
          return .sequence children joins

/-- The functions with given ones in place of the calls they make. -/
def body : Analysis where
  flatten := flattenBody program self
  invert := invertBody program self
  build := buildBody program self

end Bodies

end Analysis

/-- The body of a declared function. -/
def Decl.body? : Decl → Option Expr
  | function _ _ body => some body
  | val _ _ _ => none

namespace Program

variable {program : Program} {active : List Name} {name : Name}

/-- The declared names that are not active. -/
def inactive (program : Program) (active : List Name) : Finset Name :=
  (program.decls.map Decl.name).toFinset \ active.toFinset

theorem mem_inactive {decl : Decl} (declared : program.decl? name = some decl)
    (notActive : active.contains name = false) :
    name ∈ program.inactive active := by
  obtain ⟨member, rfl⟩ := decl?_eq_some declared
  rw [inactive, Finset.mem_sdiff, List.mem_toFinset, List.mem_toFinset]
  exact ⟨List.mem_map_of_mem member, by simpa using notActive⟩

theorem inactive_cons_lt (member : name ∈ program.inactive active) :
    (program.inactive (name :: active)).card <
    (program.inactive active).card := by
  rw [inactive, List.toFinset_cons, Finset.sdiff_insert]
  exact Finset.card_erase_lt_of_mem member

theorem inactive_le (program : Program) (active : List Name) :
    (program.inactive active).card ≤ program.decls.length := by
  have declared := List.toFinset_card_le (program.decls.map Decl.name)
  rw [List.length_map] at declared
  exact Nat.le_trans (Finset.card_le_card Finset.sdiff_subset) declared

/-- The size of all function bodies. -/
def bodySize (program : Program) : Nat :=
  Expr.sizeList (program.decls.filterMap Decl.body?)

theorem size_le_bodySize {function : Name} {param : Pattern} {body : Expr}
    (declared : program.decl? function = some (.function name param body)) :
    body.size ≤ program.bodySize := by
  obtain ⟨member, -⟩ := decl?_eq_some declared
  exact Expr.size_of_mem_items (List.mem_filterMap.mpr ⟨_, member, rfl⟩)

end Program

theorem Pattern.bindArgument?_size {param : Pattern} {argument : Expr}
    {replacements : Replacements}
    (bound : param.bindArgument? argument = some replacements) :
    replacements.AreWithin argument.size where
  positive := argument.size_pos
  each := by
    refine @bindArgument?_forall (fun part => part.size ≤ argument.size) ?_
      param argument replacements (Nat.le_refl _) bound
    intro items fits item member
    have smaller := Expr.size_of_mem_items member
    rw [Expr.size] at fits
    omega

namespace Inversion

variable {program : Program}

theorem joinClauses_congr {first second : Scope → Expr → Naming Inversion}
    {clauses : List Expr}
    (same : ∀ clause ∈ clauses, ∀ scope, first scope clause =
      second scope clause) :
    joinClauses first clauses = joinClauses second clauses := by
  induction clauses with
  | nil => rfl
  | cons clause clauses induction =>
      rw [List.forall_mem_cons] at same
      funext joined
      rw [joinClauses, joinClauses, same.1, induction same.2]

/-- How `within` unfolds functions. -/
def unfolding (program : Program) :
    (unfoldings : Nat) → (active : List Name) → Unfolder
  | 0, _, _, _, body, _ => return .failed (.unsupported body)
  | unfoldings + 1, active, function, scope, body, outputs =>
      ofBody program (within program unfoldings (function :: active)) scope
        body outputs

theorem within_eq (unfoldings : Nat) (active : List Name) (scope : Scope)
    (term : Expr) : within program unfoldings active scope term =
      ofTerm program (unfolding program unfoldings active) active term.size
        scope term := by
  cases unfoldings <;> rfl

theorem ofCall_congr {first second : Unfolder} {active : List Name}
    {scope : Scope} {term argument : Expr} {function : Name}
    {outputs : List Name}
    (same : ∀ name param body result,
      program.decl? function = some (.function name param body) →
      active.contains function = false →
        result.size ≤ body.size * argument.size →
      first function scope result outputs =
        second function scope result outputs) :
    ofCall program first active scope term function argument outputs =
      ofCall program second active scope term function argument outputs := by
  rw [ofCall, ofCall]
  split
  · rfl
  · split
    · next name param body declared =>
        split
        · rfl
        · next notActive =>
            split
            · rfl
            · next replacements bound =>
                have sizes :=
                  body.substitute_size (Pattern.bindArgument?_size bound)
                apply Naming.Returns.bind_congr (.of_ensures sizes)
                intro result fits
                exact same name param body result declared
                  (by simpa using notActive) fits
    · rfl

end Inversion

namespace Analysis

variable {program : Program} (stub : Analysis)
variable {scope : Scope} {expr term : Expr} {calls nesting : Nat}
  {active : List Name}

/-- As many nested calls as the size of an expression suffice to flatten it. -/
theorem flatten_iterate (enough : expr.size ≤ calls)
    (deep : expr.size ≤ nesting) (taken : List Name) :
    ((body program)^[calls] stub).flatten scope expr taken =
      scope.flattenWithin program nesting expr taken := by
  induction calls generalizing expr nesting taken with
  | zero => exact absurd enough (Nat.not_le_of_lt expr.size_pos)
  | succ calls induction =>
      cases nesting with
      | zero => exact absurd deep (Nat.not_le_of_lt expr.size_pos)
      | succ nesting =>
          rw [Function.iterate_succ_apply']
          refine congrFun (Scope.flattenEach_congr ?_) taken
          intro conjunct member taken
          have fits := Expr.size_of_mem_conjuncts member
          cases conjunct with
          | existence query =>
              apply Naming.Returns.bind_congr
                (.of_ensures (Scope.unwrap_size query taken))
              intro unwrapped smaller
              obtain ⟨unwrapped, taken⟩ := unwrapped
              cases unwrapped with
              | none => rfl
              | some clauses =>
                  refine congrFun (Scope.flattenEach_congr ?_) taken
                  intro clause member taken
                  have clauseSmaller := smaller clauses rfl clause member
                  exact induction (by omega) (by omega) taken
          | _ => rfl

theorem clauses_iterate (enough : expr.size ≤ calls) :
    ((body program)^[calls] stub).clauses scope expr =
    scope.flatten program expr := by
  rw [clauses, flatten_iterate stub enough (Nat.le_refl _)]
  rfl

/-- A condition that is no clause itself has smaller clauses. -/
theorem invertCondition_eq {self : Analysis}
    {invert : Scope → Expr → Naming Inversion} {condition : Expr}
    (flat : self.clauses scope condition = scope.flatten program condition)
    (smaller : ∀ scope clause, clause.size < condition.size →
      self.invert active scope clause = invert scope clause)
    (whole : Inversion.isCompound condition = false →
      self.invert active scope condition = invert scope condition)
    (outputs : List Name) :
    self.invertCondition active scope condition outputs =
      Inversion.ofBody program invert scope condition outputs := by
  rw [invertCondition, Inversion.ofBody]
  split
  · rfl
  · rw [flat]
    apply Naming.Returns.bind_congr (Scope.flatten_smaller condition)
    intro clauses flattened
    rcases clauses with _ | ⟨single, _ | ⟨second, rest⟩⟩
    · rfl
    · dsimp only
      split
      · rfl
      · next inverted =>
          rcases flattened with same | below
          · obtain rfl : single = condition := List.singleton_inj.mp same
            exact whole (by simpa using inverted)
          · exact smaller scope single (below single List.mem_cons_self)
    · have below := flattened.resolve_left (by simp)
      have joins := Inversion.joinClauses_congr fun clause member scope =>
        smaller scope clause (below clause member)
      dsimp only
      exact joins ▸ rfl

/-- How deep calls are nested when a clause is inverted: unfolding a function
can make the clause larger, but there is one function less to unfold. -/
def invertDepth (program : Program) : (functions size : Nat) → Nat
  | 0, size => size + 1
  | functions + 1, size =>
      size + 1 + invertDepth program functions (program.bodySize * size)

theorem lt_invertDepth (functions size : Nat) :
    size < invertDepth program functions size := by
  cases functions with
  | zero => exact Nat.lt_succ_self size
  | succ functions => exact Nat.lt_add_right _ (Nat.lt_succ_self size)

/-- Besides the calls that unfolded functions make, as many as the size of a
clause suffice to invert it. -/
theorem invert_of_unfolds {active : List Name} {bound depth : Nat}
    {unfold : Unfolder}
    (unfolds : ∀ calls function scope condition outputs, depth ≤ calls →
      function ∈ program.inactive active →
        condition.size ≤ program.bodySize * bound →
      ((body program)^[calls] stub).invertCondition (function :: active) scope
        condition outputs =
        unfold function scope condition outputs)
    {size calls nesting : Nat} {scope : Scope} {term : Expr}
    (fits : term.size ≤ size) (bounded : size ≤ bound)
    (enough : size + depth < calls) (deep : term.size ≤ nesting) :
    ((body program)^[calls] stub).invert active scope term =
      Inversion.ofTerm program unfold active nesting scope term := by
  induction size generalizing calls nesting scope term with
  | zero => exact absurd fits (Nat.not_le_of_lt term.size_pos)
  | succ size induction =>
      obtain ⟨calls, rfl⟩ : ∃ previous, calls = previous + 1 :=
        ⟨calls - 1, by omega⟩
      obtain ⟨nesting, rfl⟩ : ∃ previous, nesting = previous + 1 :=
        ⟨nesting - 1, by have := term.size_pos; omega⟩
      rw [Function.iterate_succ_apply']
      have compound (isCompound : Inversion.isCompound term = true)
        (outputs : List Name) :
          ((body program)^[calls] stub).invertCondition active scope term
          outputs =
            Inversion.ofBody program
              (Inversion.ofTerm program unfold active nesting) scope term
              outputs := by
        refine invertCondition_eq (clauses_iterate stub (by omega)) ?_
          ?_ outputs
        · intro scope clause below
          exact induction (by omega) (by omega) (by omega) (by omega)
        · intro plain
          rw [isCompound] at plain
          cases plain
      have called (function : Name) (argument : Expr) (outputs : List Name)
          (argumentFits : argument.size ≤ bound) :
          Inversion.ofCall program
              (fun function => ((body program)^[calls] stub).invertCondition
                (function :: active))
              active scope term function argument outputs =
            Inversion.ofCall program unfold active scope term function argument
              outputs := by
        apply Inversion.ofCall_congr
        intro name param definition result declared notActive resultFits
        refine unfolds calls function scope result outputs (by omega)
          (Program.mem_inactive declared notActive) (Nat.le_trans resultFits ?_)
        exact Nat.mul_le_mul (Program.size_le_bodySize declared) argumentFits
      show invertBody program ((body program)^[calls] stub) active scope
        term = _
      rw [invertBody, Inversion.ofTerm]
      split
      · rfl
      · cases term with
        | binary op left right => cases op <;> rfl
        | andAlso left right => exact compound rfl _
        | existence query => exact compound rfl _
        | apply function argument =>
            cases function with
            | var function =>
                have argumentFits : argument.size ≤ bound := by
                  rw [Expr.size] at fits
                  omega
                exact called function argument _ argumentFits
            | _ => rfl
        | _ => rfl

/-- Inverting a clause ends, by induction on the functions that are left to
unfold. -/
theorem invert_iterate {functions unfoldings : Nat}
    (inactive : (program.inactive active).card ≤ functions)
    (unfolds : functions ≤ unfoldings) (fits : term.size ≤ size)
    (enough : invertDepth program functions size ≤ calls)
    (deep : term.size ≤ nesting) :
    ((body program)^[calls] stub).invert active scope term =
      Inversion.ofTerm program (Inversion.unfolding program unfoldings active)
        active nesting scope term := by
  induction functions generalizing unfoldings active scope term size calls
    nesting with
  | zero =>
      refine @invert_of_unfolds program stub active size 0 _ ?_ size calls
        nesting scope term fits (Nat.le_refl _) enough deep
      intro calls function scope condition outputs _ member
      have none := Finset.card_eq_zero.mp (Nat.le_zero.mp inactive)
      rw [none] at member
      exact absurd member (Finset.notMem_empty function)
  | succ functions induction =>
      obtain ⟨unfoldings, rfl⟩ : ∃ previous, unfoldings = previous + 1 :=
        ⟨unfoldings - 1, by omega⟩
      rw [invertDepth] at enough
      refine invert_of_unfolds stub ?_ fits (Nat.le_refl _)
        (show size + invertDepth program functions (program.bodySize * size) <
          calls by omega) deep
      intro calls function scope condition outputs enough member conditionFits
      have fewer := Program.inactive_cons_lt member
      have inverts (scope : Scope) (clause : Expr)
        (clauseFits : clause.size ≤ condition.size) :
          ((body program)^[calls] stub).invert (function :: active) scope
          clause =
            Inversion.within program unfoldings (function :: active) scope
              clause := by
        rw [Inversion.within_eq]
        exact induction (by omega) (by omega) (by omega) enough (Nat.le_refl _)
      refine invertCondition_eq (clauses_iterate stub ?_) ?_ ?_ outputs
      · have large :=
          @lt_invertDepth program functions (program.bodySize * size)
        omega
      · intro scope clause below
        exact inverts scope clause (Nat.le_of_lt below)
      · intro _
        exact inverts scope condition (Nat.le_refl _)

theorem invert_iterate_base (fits : term.size ≤ size)
    (enough : invertDepth program (program.inactive active).card size ≤ calls) :
    ((body program)^[calls] stub).invert active scope term =
      Inversion.base program active scope term := by
  rw [Inversion.base, Inversion.within_eq]
  exact invert_iterate stub (Nat.le_refl _) (program.inactive_le active)
    fits enough (Nat.le_refl _)

end Analysis

namespace AnalysisTree

theorem buildEach_congr {first second : Scope → Expr → Naming AnalysisTree}
    {clauses : List Expr}
    (same : ∀ clause ∈ clauses, ∀ scope, first scope clause =
      second scope clause) :
    buildEach first clauses = buildEach second clauses := by
  induction clauses with
  | nil => rfl
  | cons clause clauses induction =>
      rw [List.forall_mem_cons] at same
      funext scope
      rw [buildEach, buildEach, same.1, induction same.2]

end AnalysisTree

namespace Analysis

variable {program : Program} (stub : Analysis)

/-- Building the tree of an expression ends. -/
theorem build_iterate {active : List Name} {scope : Scope} {expr : Expr}
    {bound calls fuel : Nat} (fits : expr.size ≤ size) (bounded : size ≤ bound)
    (enough : size +
      invertDepth program (program.inactive active).card bound < calls)
    (deep : expr.size ≤ fuel) :
    ((body program)^[calls] stub).build active scope expr =
      AnalysisTree.buildWithin program (Inversion.base program) active fuel
        scope expr := by
  induction size generalizing calls fuel scope expr with
  | zero => exact absurd fits (Nat.not_le_of_lt expr.size_pos)
  | succ size induction =>
      obtain ⟨calls, rfl⟩ : ∃ previous, calls = previous + 1 :=
        ⟨calls - 1, by omega⟩
      obtain ⟨fuel, rfl⟩ : ∃ previous, fuel = previous + 1 :=
        ⟨fuel - 1, by have := expr.size_pos; omega⟩
      rw [Function.iterate_succ_apply']
      have smaller (scope : Scope) (part : Expr)
        (below : part.size < expr.size) :
          ((body program)^[calls] stub).build active scope part =
            AnalysisTree.buildWithin program (Inversion.base program) active
              fuel scope part :=
        induction (by omega) (by omega) (by omega) (by omega)
      have leaves : AnalysisTree.leaf ((body program)^[calls] stub).invert
        active scope expr =
          AnalysisTree.leaf (Inversion.base program) active scope expr := by
        rw [AnalysisTree.leaf, AnalysisTree.leaf,
          invert_iterate_base stub (Nat.le_trans fits bounded) (by omega)]
      show buildBody program ((body program)^[calls] stub) active scope expr = _
      rw [buildBody, AnalysisTree.buildWithin]
      rcases arms : expr.disjuncts with _ | ⟨first, _ | ⟨second, rest⟩⟩
      · exact absurd arms expr.disjuncts_ne_nil
      · dsimp only
        rw [clauses_iterate stub (by omega)]
        apply Naming.Returns.bind_congr (Scope.flatten_smaller expr)
        intro clauses flattened
        rcases clauses with _ | ⟨single, _ | ⟨second, rest⟩⟩
        · exact leaves
        · dsimp only
          split
          · exact leaves
          · next different =>
              have below := flattened.resolve_left (by simpa using different)
              exact smaller scope single (below single List.mem_cons_self)
        · have below := flattened.resolve_left (by simp)
          have builds := AnalysisTree.buildEach_congr fun clause member scope =>
            smaller scope clause (below clause member)
          dsimp only
          rw [builds]
      · obtain ⟨firstSmaller, restSmaller⟩ := Expr.size_of_disjuncts arms
        dsimp only
        rw [smaller scope first firstSmaller, smaller scope _ restSmaller]

end Analysis

end RecursiveQuery
