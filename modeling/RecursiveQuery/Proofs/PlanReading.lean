import RecursiveQuery.Digest
import RecursiveQuery.Proofs.ProperPlan
import RecursiveQuery.Proofs.RoundTrip

/-!
# Plans are read back

The plan of a proper query against a proper program is proper, so that its
written form is read back as the same plan with the same digest.
-/

namespace RecursiveQuery

/-- Whether names with dots are only called in a declaration. -/
def Decl.dotsOnlyCalls : Decl → Bool
  | val _ _ value => value.all Expr.dotsOnlyCalls
  | function _ _ body => body.dotsOnlyCalls

def Program.dotsOnlyCalls (program : Program) : Bool :=
  program.decls.all Decl.dotsOnlyCalls

theorem Program.properFunctions {program : Program}
    (formed : program.isWellFormed = true)
    (called : program.dotsOnlyCalls = true) : program.ProperFunctions := by
  intro name param body declared
  have declFormed := List.all_eq_true.mp formed _ declared
  have declCalled := List.all_eq_true.mp called _ declared
  simp only [Decl.isWellFormed, Bool.and_eq_true] at declFormed
  exact ⟨declFormed.1.2, declFormed.2, declCalled⟩

variable {program : Program} {settings : Settings} {expr plan : Expr}

theorem PredicateInverter.plan_proper (functions : program.ProperFunctions)
    (proper : expr.Proper)
    (planned : (ofProgram program settings).plan expr = .ok plan) :
    plan.Proper := by
  rcases plan_cases program settings expr with
    ⟨refusal, refused⟩ | ⟨stages, plans⟩
  · cases planned.symm.trans (refused settings.joinSource)
  · cases planned.symm.trans (plans settings.joinSource)
    exact stages.proper functions proper settings.joinSource

/-- Planning keeps well-formed trees in which names with dots are only called,
and so a plan whose text leaves no comment open is read back. -/
theorem plan_reads_back (programFormed : program.isWellFormed = true)
    (programCalled : program.dotsOnlyCalls = true)
    (exprFormed : expr.isWellFormed = true)
    (exprCalled : expr.dotsOnlyCalls = true)
    (planned : (PredicateInverter.ofProgram program settings).plan expr =
      .ok plan) :
    plan.isWellFormed = true ∧ plan.dotsOnlyCalls = true ∧
      (unclosedComment? plan.chars = none →
        Expr.read plan.print = .ok plan ∧
          (Expr.read plan.print).map Expr.digest = .ok plan.digest) := by
  obtain ⟨planFormed, planCalled⟩ := PredicateInverter.plan_proper
    (Program.properFunctions programFormed programCalled)
    ⟨exprFormed, exprCalled⟩ planned
  refine ⟨planFormed, planCalled, ?_⟩
  intro closed
  have read : Expr.read plan.print = .ok plan := by
    rw [Expr.read, Expr.print, String.toList_ofList]
    exact (Reader.wholeClosed_eq (Expr.whole_chars planFormed)).1 closed
  exact ⟨read, by rw [read]; rfl⟩

/-- Steps over a relation of strings, one of which looks like a comment. -/
def remarks : Program :=
  let follows (first second : Name) : Expr :=
    .binary .member (.tuple [.var first, .var second])
      (.list [.tuple [.literal (.str "a"), .literal (.str "(* b *)")]])
  ⟨[.function "after" (.tuple [.var "x", .var "y"])
    (.orElse (follows "x" "y")
      (.existence ⟨[⟨.var "z", none⟩],
        [.filter (.andAlso (follows "x" "z")
          (.apply (.var "after") (.tuple [.var "z", .var "y"])))]⟩))]⟩

/-- A variable for whole rows is planned with renamed rows, and the remark is no
comment of the plan. -/
theorem plan_reads_back_remarks :
    let expr : Expr := .collect
      ⟨[⟨.var "x", none⟩], [.filter (.apply (.var "after") (.var "x"))]⟩
    ∃ plan, (PredicateInverter.ofProgram remarks {}).plan expr = .ok plan ∧
      plan.print =
        "from x in List.iterate [(\"a\", \"(* b *)\")] (fn (old, new) => " ++
        "from (x_1, z) in [(\"a\", \"(* b *)\")], (z_1, y) in new where z = z_1 " ++
        "yield (x_1, y))" ∧
      Expr.read plan.print = .ok plan ∧
      (Expr.read plan.print).map Expr.digest = .ok plan.digest := by
  intro expr
  let text :=
    "from x in List.iterate [(\"a\", \"(* b *)\")] (fn (old, new) => " ++
    "from (x_1, z) in [(\"a\", \"(* b *)\")], (z_1, y) in new where z = z_1 " ++
    "yield (x_1, y))"
  have written : ((PredicateInverter.ofProgram remarks {}).plan
    expr).toOption.map Expr.print = some text := by decide +kernel
  cases planned : (PredicateInverter.ofProgram remarks {}).plan expr with
  | error refusal =>
      rw [planned] at written
      cases written
  | ok plan =>
      rw [planned] at written
      have printed : plan.print = text := Option.some.inj written
      have closed : unclosedComment? plan.chars = none := by
        rw [← String.toList_ofList (l := plan.chars), ← Expr.print, printed]
        decide +kernel
      exact ⟨plan, rfl, printed,
        (plan_reads_back (by decide +kernel) (by decide +kernel)
        (by decide +kernel) (by decide +kernel) planned).2.2 closed⟩

end RecursiveQuery
