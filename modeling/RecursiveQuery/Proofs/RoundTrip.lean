import RecursiveQuery.Proofs.ProgramReading
import RecursiveQuery.Proofs.ReadTrees

/-!
# Reading undoes printing

Well-formed trees are exactly those that are read, and every one of them is read
back from its written form.  Expressions and programs are refused first where a
string literal leaves a comment mark open in the text.
-/

namespace RecursiveQuery

/-- The reply of a reader of closed texts to the written form of a tree. -/
theorem Reader.wholeClosed_eq {α : Type} {kind : SourceKind} {reader : Reader α}
    {text : List Char} {value : α} (read : whole kind reader text = .ok value) :
    (unclosedComment? text = none → wholeClosed kind reader text = .ok value) ∧
      ∀ suffix, unclosedComment? text = some suffix →
        wholeClosed kind reader text =
          .error (.unclosedComment (Position.ofSuffix text suffix).line) := by
  constructor
  · intro closed
    simp only [wholeClosed, closed, read]
  · intro suffix opened
    simp only [wholeClosed, opened]

/-- Written trees are read back unless a comment seems to be open in the text,
and readers return only trees that have a written form. -/
theorem reading_undoes_printing :
    (∀ expr : Expr, expr.isWellFormed = true →
      (unclosedComment? expr.chars = none → Expr.read expr.print = .ok expr) ∧
        ∀ suffix, unclosedComment? expr.chars = some suffix →
          Expr.read expr.print = .error (.unclosedComment
            (Position.ofSuffix expr.chars suffix).line)) ∧
    (∀ program : Program, program.isWellFormed = true →
      (unclosedComment? program.chars = none →
        Program.read program.print = .ok program) ∧
        ∀ suffix, unclosedComment? program.chars = some suffix →
          Program.read program.print =
            .error (.unclosedComment
              (Position.ofSuffix program.chars suffix).line)) ∧
    (∀ pattern : Pattern, pattern.isWellFormed = true →
      Pattern.read pattern.print = .ok pattern) ∧
    (∀ type : Ty, type.isWellFormed = true → Ty.read type.print = .ok type) ∧
    (∀ text expr, Expr.read text = .ok expr → expr.isWellFormed = true) ∧
    (∀ text program, Program.read text = .ok program →
      program.isWellFormed = true) ∧
    (∀ text pattern, Pattern.read text = .ok pattern →
      pattern.isWellFormed = true) ∧
    (∀ text type, Ty.read text = .ok type → type.isWellFormed = true) := by
  refine ⟨?_, ?_, fun _ => Pattern.read_print, fun _ => Ty.read_print,
    fun _ _ => Expr.isWellFormed_of_read,
    fun _ _ => Program.isWellFormed_of_read,
    fun _ _ => Pattern.isWellFormed_of_read, fun _ _ => Ty.isWellFormed_of_read⟩
  · intro expr wellFormed
    rw [Expr.read, Expr.print, String.toList_ofList]
    exact Reader.wholeClosed_eq (Expr.whole_chars wellFormed)
  · intro program wellFormed
    obtain ⟨read, refused⟩ :=
      Reader.wholeClosed_eq (Program.whole_chars wellFormed)
    rw [Program.read, Program.print, String.toList_ofList]
    constructor
    · intro closed
      rw [read closed]
      rfl
    · intro suffix opened
      rw [refused suffix opened]
      rfl

/-- A comment mark in a string matters only if it stays open. -/
theorem reading_undoes_printing_quoted :
    let closed : Expr :=
      .lambda (.tuple [.var "x", .wildcard])
        (.collect ⟨[⟨.var "y", some (.apply (.var "List.rev") (.var "x"))⟩],
          [.filter (.orElse (.existence ⟨[⟨.var "z", none⟩], []⟩)
            (.binary .lt (.var "y") (.literal (.int (-5))))),
            .yield (.literal (.str "\"(* \n *)"))]⟩)
    let opened : Expr := .literal (.str "(*")
    closed.isWellFormed = true ∧ Expr.read closed.print = .ok closed ∧
      opened.isWellFormed = true ∧
      Expr.read opened.print = .error (.unclosedComment 1) :=
  ⟨by decide +kernel,
    (reading_undoes_printing.1 _ (by decide +kernel)).1 (by decide +kernel),
    by decide +kernel,
    (reading_undoes_printing.1 _ (by decide +kernel)).2 ['(', '*', '"']
    (by decide +kernel)⟩

end RecursiveQuery
