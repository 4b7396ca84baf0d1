import RecursiveQuery.Proofs.ClauseNames

/-!
# Known names

A name is known where a variable of that name is bound or the program provides
it.  Scans make their variables known to what stands behind them.
-/

namespace RecursiveQuery

/-- A name that a program declares or that is builtin. -/
def Program.Provides (program : Program) (name : Name) : Prop :=
  (program.decl? name).isSome = true ∨ name ∈ Builtin.names

/-- A name that a scope binds or a program provides. -/
def Scope.Knows (scope : Scope) (program : Program) (name : Name) : Prop :=
  scope.isBound name = true ∨ program.Provides name

/-- All free names of an expression are known. -/
def Expr.Within (known : Name → Prop) (expr : Expr) : Prop :=
  ∀ name ∈ expr.freeVars, known name

/-- The variables that scans bind. -/
def Scan.bound (scans : List Scan) : List Name :=
  scans.flatMap fun scan => scan.pattern.occurrences

/-- All free names of the sources of scans are known or bound by the scans
before. -/
def Scan.areWithin (known : Name → Prop) : List Scan → Prop
  | [] => True
  | ⟨pattern, source⟩ :: scans =>
      (∀ name ∈ Expr.freeVarsSource source, known name) ∧
        areWithin (fun name => known name ∨ name ∈ pattern.occurrences) scans

section Within

variable {known other : Name → Prop}

theorem Expr.Within.mono {expr : Expr} (within : expr.Within known)
    (weaker : ∀ name, known name → other name) : expr.Within other :=
  fun name member => weaker name (within name member)

namespace Scan

variable {scans : List Scan}

theorem areWithin.mono (within : areWithin known scans)
    (weaker : ∀ name, known name → other name) : areWithin other scans := by
  induction scans generalizing known other with
  | nil => trivial
  | cons scan scans induction =>
      obtain ⟨pattern, source⟩ := scan
      refine ⟨fun name member => weaker name (within.1 name member),
        induction within.2 ?_⟩
      rintro name (isKnown | occurs)
      · exact .inl (weaker name isKnown)
      · exact .inr occurs

theorem areWithin_append {first second : List Scan}
    (firstWithin : areWithin known first)
    (secondWithin :
      areWithin (fun name => known name ∨ name ∈ bound first) second) :
    areWithin known (first ++ second) := by
  induction first generalizing known with
  | nil =>
      exact secondWithin.mono fun name isKnown =>
        isKnown.resolve_right (by simp [bound])
  | cons scan scans induction =>
      obtain ⟨pattern, source⟩ := scan
      refine ⟨firstWithin.1, induction firstWithin.2 (secondWithin.mono ?_)⟩
      rintro name (isKnown | occurs)
      · exact .inl (.inl isKnown)
      · rcases List.mem_append.mp occurs with here | later
        · exact .inl (.inr here)
        · exact .inr later

/-- What stands behind scans may mention their variables. -/
theorem known_of_mem_freeVarsScans {body : List Name}
    (within : areWithin known scans)
    (bodyKnown : ∀ name ∈ body, known name ∨ name ∈ bound scans) :
    ∀ name ∈ Expr.freeVarsScans scans body, known name := by
  induction scans generalizing known with
  | nil =>
      exact fun name member =>
        (bodyKnown name member).resolve_right (by simp [bound])
  | cons scan scans induction =>
      obtain ⟨pattern, source⟩ := scan
      intro name member
      rw [Expr.freeVarsScans_cons, List.mem_append] at member
      rcases member with inSource | behind
      · exact within.1 name inSource
      · obtain ⟨inRest, unbound⟩ := Name.mem_outside.mp behind
        refine (induction within.2 ?_ name inRest).resolve_right unbound
        intro other inBody
        rcases bodyKnown other inBody with isKnown | isBound
        · exact .inl (.inl isKnown)
        · rcases List.mem_append.mp isBound with here | later
          · exact .inl (.inr here)
          · exact .inr later

end Scan

theorem Expr.within_conjunction {terms : List Expr}
    (within : ∀ term ∈ terms, term.Within known) :
    (Expr.conjunction terms).Within known :=
  @conjunction_of_forall (fun term => term.Within known) nofun
    (fun _ _ left right => List.forall_mem_append.mpr ⟨left, right⟩)
    terms within

theorem Expr.freeVars_row (names : List Name) :
    (Expr.row names).freeVars = names := by
  have list (names : List Name) : freeVarsList (names.map var) = names := by
    induction names with
    | nil => rfl
    | cons name names induction => exact congrArg (name :: ·) induction
  rcases names with _ | ⟨first, _ | ⟨second, rest⟩⟩
  · rfl
  · rfl
  · exact list (first :: second :: rest)

/-- A comprehension that filters and outputs what its scans bind. -/
theorem Query.within_filtered {scans : List Scan} {conditions : List Expr}
    {output : Expr} (within : Scan.areWithin known scans)
    (conditionsWithin : ∀ condition ∈ conditions,
      condition.Within fun name => known name ∨ name ∈ Scan.bound scans)
    (outputWithin : output.Within fun name => known name ∨
      name ∈ Scan.bound scans) :
    (Expr.collect (filtered scans conditions output)).Within known := by
  refine Scan.known_of_mem_freeVarsScans within ?_
  intro name member
  cases conditions with
  | nil =>
      rcases List.mem_append.mp member with inOutput | none
      · exact outputWithin name inOutput
      · cases none
  | cons first rest =>
      rcases List.mem_append.mp member with inCondition | behind
      · exact Expr.within_conjunction conditionsWithin name inCondition
      · rcases List.mem_append.mp behind with inOutput | none
        · exact outputWithin name inOutput
        · cases none

end Within

/-- The variables of an expression whose other names are global. -/
theorem Scope.within_of_locals {scope : Scope} {program : Program} {expr : Expr}
    (bound : (scope.locals program expr).all scope.isBound = true) :
    expr.Within (scope.Knows program) := by
  intro name member
  cases isGlobal : scope.isGlobal program name with
  | false =>
      exact .inl
        (List.all_eq_true.mp bound name (mem_locals.mpr ⟨member, isGlobal⟩))
  | true =>
      simp only [Scope.isGlobal, Bool.and_eq_true, Bool.or_eq_true,
        List.contains_iff_mem] at isGlobal
      exact .inr isGlobal.2.symm

end RecursiveQuery
