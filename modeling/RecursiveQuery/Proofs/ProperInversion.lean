import RecursiveQuery.Proofs.InversionCases
import RecursiveQuery.Proofs.ProperClauses

/-!
# Proper inversions

Proper clauses are inverted to proper generators.  A scope binds only
identifiers and the outputs of a join are bound by it, so that a row of outputs
is a pattern; there is always an output and always something to scan.
-/

namespace RecursiveQuery

/-- The functions of a program have well-formed parameters and proper bodies. -/
def Program.ProperFunctions (program : Program) : Prop :=
  ∀ name param body, .function name param body ∈ program.decls →
    param.isWellFormed = true ∧ body.Proper

def Generator.Proper (generator : Generator) : Prop :=
  generator.pattern.isWellFormed = true ∧ generator.source.Proper

/-- Bound variables are identifiers. -/
def Scope.Proper (scope : Scope) : Prop :=
  ∀ name, scope.isBound name = true → name.isIdentifier = true

namespace Generator

variable {generator : Generator}

theorem Proper.scan (proper : generator.Proper) : generator.scan.Proper := by
  refine ⟨proper.1, ?_⟩
  simpa [Generator.scan] using proper.2

end Generator

theorem Scope.Proper.produce {scope : Scope} {generator : Generator}
    (proper : scope.Proper)
    (wellFormed : generator.pattern.isWellFormed = true) :
    (scope.produce generator).Proper := by
  intro name bound
  rcases isBound_produce_iff.mp bound with before | new
  · exact proper name before
  · exact Pattern.isIdentifier_of_mem_occurrences wellFormed name new

theorem Expr.proper_row {names : List Name}
    (identifiers : ∀ name ∈ names, name.isIdentifier = true) :
    (row names).Proper := by
  match names with
  | [] => simp [row, bracketed, Literal.isWellFormed]
  | [name] => exact proper_var.mpr (identifiers name List.mem_cons_self)
  | first :: second :: rest =>
      refine proper_tuple.mpr ⟨by simp, ?_⟩
      intro item member
      change item ∈ (first :: second :: rest).map var at member
      obtain ⟨name, inNames, rfl⟩ := List.mem_map.mp member
      exact proper_var.mpr (identifiers name inNames)

theorem Query.proper_filtered {scans : List Scan} {conditions : List Expr}
    {output : Expr} (nonempty : scans ≠ [])
    (scansProper : ∀ scan ∈ scans, scan.Proper)
    (conditionsProper : ∀ condition ∈ conditions, condition.Proper)
    (outputProper : output.Proper) :
    (filtered scans conditions output).Proper := by
  refine ⟨nonempty, scansProper, ?_⟩
  intro step member
  cases conditions with
  | nil =>
      simp only [filtered, List.mem_singleton] at member
      subst member
      exact outputProper
  | cons first rest =>
      simp only [filtered, List.mem_cons, List.not_mem_nil, or_false] at member
      rcases member with rfl | rfl
      · exact Expr.proper_conjunction conditionsProper
      · exact outputProper

theorem Generator.proper_join {parts : List Generator} {residual : List Expr}
    {outputs : List Name} (partsNonempty : parts ≠ [])
    (outputsNonempty : outputs ≠ []) (partsProper : ∀ part ∈ parts, part.Proper)
    (residualProper : ∀ term ∈ residual, term.Proper)
    (identifiers : ∀ name ∈ outputs, name.isIdentifier = true) :
    (join parts residual outputs).Proper := by
  refine ⟨Pattern.isWellFormed_row outputsNonempty identifiers,
    Expr.proper_collect.mpr ?_⟩
  refine Query.proper_filtered (by simpa using partsNonempty) ?_ residualProper
    (Expr.proper_row identifiers)
  intro scan member
  obtain ⟨part, inParts, rfl⟩ := List.mem_map.mp member
  exact (partsProper part inParts).scan

/-! ## Single clauses -/

theorem Expr.proper_equals {left right : Name}
    (leftIdentifier : left.isIdentifier = true)
    (rightIdentifier : right.isIdentifier = true) :
    (equals (var left) (var right)).Proper :=
  proper_binary.mpr
    ⟨proper_var.mpr leftIdentifier, proper_var.mpr rightIdentifier⟩

namespace Pattern

variable {scope : Scope}

mutual

theorem freshenFrom_proper {pattern : Pattern}
    (formed : pattern.isWellFormed = true) (seen : List Name)
    (supply : NameSupply) :
    (pattern.freshenFrom scope seen).Ensures supply fun result _ =>
      result.1.isWellFormed = true ∧
      ∀ equation ∈ result.2.2, equation.Proper := by
  cases pattern with
  | wildcard => exact .pure ⟨rfl, by simp⟩
  | literal value => exact .pure ⟨formed, by simp⟩
  | var name =>
      rw [freshenFrom]
      split
      · refine .bind (supply.fresh_proper formed) ?_
        intro target later _ identifier
        exact .pure
          ⟨identifier, by simpa using Expr.proper_equals identifier formed⟩
      · exact .pure ⟨formed, by simp⟩
  | tuple items =>
      simp only [isWellFormed, Bool.and_eq_true, decide_eq_true_eq] at formed
      refine .bind (freshenFromList_proper formed.2 seen supply) ?_
      rintro ⟨newItems, newSeen, equations⟩ later _
        ⟨length, itemsFormed, equationsProper⟩
      refine .pure ⟨?_, equationsProper⟩
      simpa [isWellFormed, itemsFormed, ← length] using formed.1

theorem freshenFromList_proper {items : List Pattern}
    (formed : areWellFormed items = true) (seen : List Name)
    (supply : NameSupply) :
    (freshenFromList scope items seen).Ensures supply fun result _ =>
      items.length = result.1.length ∧ areWellFormed result.1 = true ∧
        ∀ equation ∈ result.2.2, equation.Proper := by
  cases items with
  | nil => exact .pure ⟨rfl, rfl, by simp⟩
  | cons item items =>
      simp only [areWellFormed, Bool.and_eq_true] at formed
      refine .bind (freshenFrom_proper formed.1 seen supply) ?_
      rintro ⟨newItem, newSeen, first⟩ later _ ⟨itemFormed, firstProper⟩
      refine .bind (freshenFromList_proper formed.2 newSeen later) ?_
      rintro ⟨newItems, lastSeen, rest⟩ last _ ⟨length, itemsFormed, restProper⟩
      refine .pure ⟨congrArg (· + 1) length, ?_,
        List.forall_mem_append.mpr ⟨firstProper, restProper⟩⟩
      rw [areWellFormed, itemFormed, itemsFormed, Bool.and_true]

end

theorem freshen_proper {pattern : Pattern}
    (formed : pattern.isWellFormed = true) (supply : NameSupply) :
    (pattern.freshen scope).Ensures supply fun result _ =>
      result.1.isWellFormed = true ∧
      ∀ equation ∈ result.2, equation.Proper := by
  refine .bind (freshenFrom_proper formed [] supply) ?_
  intro result later _ found
  exact .pure found

end Pattern

namespace Inversion

variable {term argument : Expr} {function : Name}
  {invert : Scope → Expr → Naming Inversion} {joined : Joined}
  {outputs : List Name}

/-- A generated inversion has a proper generator and proper conditions. -/
def Proper : Inversion → Prop
  | generated generator residual => generator.Proper ∧
      ∀ term ∈ residual, term.Proper
  | _ => True

/-- Inversion of proper clauses in proper scopes gives proper inversions. -/
def KeepsProper (invert : Scope → Expr → Naming Inversion) : Prop :=
  ∀ scope term supply, scope.Proper → term.Proper →
    (invert scope term).Ensures supply fun inversion _ => inversion.Proper

variable {program : Program} {scope : Scope}

theorem ofMember_proper {left right : Expr} (leftProper : left.Proper)
    (rightProper : right.Proper) (supply : NameSupply) :
    (ofMember program scope left right).Ensures supply fun inversion _ =>
    inversion.Proper := by
  rw [ofMember]
  split
  · exact .pure trivial
  · split
    · exact .pure trivial
    · next pattern taken =>
        refine .bind (Pattern.freshen_proper
          (Expr.isWellFormed_of_toPattern? leftProper taken) supply) ?_
        intro result later _ found
        exact .pure ⟨⟨found.1, rightProper⟩, found.2⟩

theorem ofPattern_proper {pattern : Pattern} {value : Expr}
    (formed : pattern.isWellFormed = true) (proper : value.Proper)
    (supply : NameSupply) : (ofPattern scope pattern value).Ensures supply
    fun inversion _ => inversion.Proper := by
  refine .bind (Pattern.freshen_proper formed supply) ?_
  intro result later _ found
  exact .pure ⟨⟨found.1, Expr.proper_list.mpr (by simpa using proper)⟩, found.2⟩

theorem ofEquality_proper {left right : Expr} (leftProper : left.Proper)
    (rightProper : right.Proper) (supply : NameSupply) :
    (ofEquality program scope term left right).Ensures supply
      fun inversion _ => inversion.Proper := by
  rw [ofEquality]
  split
  · next pattern found =>
      exact ofPattern_proper (Expr.isWellFormed_of_toPattern? leftProper
        (of_equalityPattern? found).2) rightProper supply
  · split
    · next pattern found =>
        exact ofPattern_proper (Expr.isWellFormed_of_toPattern? rightProper
          (of_equalityPattern? found).2) leftProper supply
    · exact .pure trivial

theorem ofOpaqueCall_proper (qualified : function.isQualified = true)
    (proper : argument.Proper) (supply : NameSupply) :
    (ofOpaqueCall scope term function argument).Ensures supply
      fun inversion _ => inversion.Proper := by
  rw [ofOpaqueCall]
  split
  · exact .pure trivial
  · next pattern taken =>
      refine .bind
        (Pattern.freshen_proper (Expr.isWellFormed_of_toPattern? proper taken)
        supply) ?_
      rintro ⟨newPattern, residual⟩ later _ ⟨formed, residualProper⟩
      dsimp only
      split
      · next row rebuilt =>
          have condition : (Expr.apply (.var function) row).Proper :=
            Expr.proper_apply.mpr
              ⟨qualified, Pattern.proper_of_toExpr? formed rebuilt⟩
          refine .pure ⟨⟨formed, Expr.proper_collect.mpr ⟨by simp, ?_, ?_⟩⟩,
            residualProper⟩
          · simpa [Scan.Proper] using formed
          · simpa [Step.Proper, Step.expr] using condition
      · exact .pure trivial

/-- What joined clauses have produced is proper. -/
structure Joined.Proper (joined : Joined) : Prop where
  scope : joined.scope.Proper
  parts : ∀ part ∈ joined.parts, part.Proper
  residual : ∀ term ∈ joined.residual, term.Proper

theorem joinClauses_proper (inverts : KeepsProper invert) {clauses : List Expr}
    (proper : ∀ clause ∈ clauses, clause.Proper) (joinedProper : joined.Proper)
    (supply : NameSupply) :
    (joinClauses invert clauses joined).Ensures supply fun result _ =>
      ∀ joined, result = .ok joined → joined.Proper := by
  induction clauses generalizing joined supply with
  | nil =>
      refine .pure ?_
      intro other equality
      cases equality
      exact joinedProper
  | cons clause clauses induction =>
      simp only [List.forall_mem_cons] at proper
      refine .bind
        (inverts joined.scope clause supply joinedProper.scope proper.1) ?_
      intro inversion later _ found
      cases inversion with
      | generated generator residual =>
          refine induction proper.2 ?_ later
          refine ⟨joinedProper.scope.produce found.1.1, ?_, ?_⟩
          · exact List.forall_mem_append.mpr
              ⟨joinedProper.parts, by simpa using found.1⟩
          · exact List.forall_mem_append.mpr ⟨joinedProper.residual, found.2⟩
      | filter =>
          refine induction proper.2 ?_ later
          refine ⟨joinedProper.scope, joinedProper.parts, ?_⟩
          exact List.forall_mem_append.mpr
            ⟨joinedProper.residual, by simpa using proper.1⟩
      | failed obstacle => exact .pure (by simp)

theorem ofJoined_proper (nonempty : outputs ≠ []) (proper : joined.Proper) :
    (ofJoined outputs joined).Proper := by
  rcases ofJoined_cases outputs joined with
    ⟨obstacle, failed⟩ |
    ⟨bound, ⟨-, filters⟩ | ⟨only, parts, -, keeps⟩ | ⟨some, joins⟩⟩
  · rw [failed]
    trivial
  · rw [filters]
    trivial
  · rw [keeps]
    exact ⟨proper.parts only (by simp [parts]), proper.residual⟩
  · rw [joins]
    exact ⟨Generator.proper_join some nonempty proper.parts proper.residual
      fun name member => proper.scope name (bound name member), by simp⟩

theorem ofBody_proper (inverts : KeepsProper invert) {body : Expr}
    (scopeProper : scope.Proper) (proper : body.Proper)
    (nonempty : outputs ≠ []) (supply : NameSupply) :
    (ofBody program invert scope body outputs).Ensures supply
      fun inversion _ => inversion.Proper := by
  refine ofBody_ensures (fun _ _ => trivial)
    (Scope.flatten_proper proper supply) ?_ ?_
  · intro clause later _ found
    exact inverts scope clause later scopeProper
      (found clause List.mem_cons_self)
  · intro clauses later _ found
    refine (joinClauses_proper inverts found ⟨scopeProper, by simp, by simp⟩
      later).mono ?_
    intro result last _ joinedProper joined equality
    exact ofJoined_proper nonempty (joinedProper joined equality)

/-- Unfolding a proper body gives proper inversions. -/
def UnfoldsProper (unfold : Unfolder) : Prop :=
  ∀ function scope body outputs supply, scope.Proper → body.Proper →
    outputs ≠ [] →
    (unfold function scope body outputs).Ensures supply fun inversion _ =>
    inversion.Proper

variable {unfold : Unfolder} {active : List Name}

theorem ofCall_proper (functions : program.ProperFunctions)
    (unfolds : UnfoldsProper unfold) (scopeProper : scope.Proper)
    (qualified : function.isQualified = true) (proper : argument.Proper)
    (nonempty : outputs ≠ []) (supply : NameSupply) :
    (ofCall program unfold active scope term function argument outputs).Ensures
    supply fun inversion _ => inversion.Proper := by
  rw [ofCall]
  split
  · exact .pure trivial
  · split
    · next name param body declared =>
        split
        · exact .pure trivial
        · split
          · exact .pure trivial
          · next replacements bound =>
              have bodyProper :=
                (functions _ _ _ (Program.decl?_eq_some declared).1).2
              refine .bind (Expr.substitute_proper bodyProper
                (Pattern.bindArgument?_forall
                  (fun _ given => (Expr.proper_tuple.mp given).2)
                  proper bound) supply) ?_
              intro newBody later _ found
              exact unfolds function scope newBody outputs later scopeProper
                found nonempty
    · exact ofOpaqueCall_proper qualified proper supply

theorem ofTerm_proper (functions : program.ProperFunctions)
    (unfolds : UnfoldsProper unfold) (nesting : Nat) :
    KeepsProper (ofTerm program unfold active nesting) := by
  induction nesting with
  | zero =>
      intro scope term supply _ _
      exact .pure trivial
  | succ nesting induction =>
      intro scope term supply scopeProper proper
      rw [ofTerm]
      split
      · exact .pure trivial
      · next unbound =>
          have nonempty := Scope.unboundInOrder_ne_nil (by simpa using unbound)
          split
          · next left right =>
              obtain ⟨leftProper, rightProper⟩ := Expr.proper_binary.mp proper
              exact ofMember_proper leftProper rightProper supply
          · next left right =>
              obtain ⟨leftProper, rightProper⟩ := Expr.proper_binary.mp proper
              exact ofEquality_proper leftProper rightProper supply
          · exact ofBody_proper induction scopeProper proper nonempty supply
          · exact ofBody_proper induction scopeProper proper nonempty supply
          · next function argument =>
              obtain ⟨qualified, argumentProper⟩ := Expr.proper_apply.mp proper
              exact ofCall_proper functions unfolds scopeProper qualified
                argumentProper nonempty supply
          · exact .pure trivial

theorem within_proper (functions : program.ProperFunctions) (unfoldings : Nat)
    (active : List Name) : KeepsProper (within program unfoldings active) := by
  induction unfoldings generalizing active with
  | zero =>
      intro scope term supply
      refine ofTerm_proper functions ?_ term.size scope term supply
      intro function scope body outputs supply _ _ _
      exact .pure trivial
  | succ unfoldings induction =>
      intro scope term supply
      refine ofTerm_proper functions ?_ term.size scope term supply
      intro function scope body outputs supply scopeProper bodyProper nonempty
      exact ofBody_proper (induction (function :: active)) scopeProper
        bodyProper nonempty supply

end Inversion

end RecursiveQuery
