import RecursiveQuery.Proofs.CommentMarks
import RecursiveQuery.Proofs.RoundTrip

/-!
# Formatting

A source is formatted by reading it and printing the tree.  Comments are lost on
the way, and with them the end of a comment that a string literal seemed to
begin.  The string literals that remain decide whether the formatted text is
read back; nothing else can go wrong.
-/

namespace RecursiveQuery

/-- A written tree is read back exactly if its string literals leave no comment
open, and otherwise a comment is found open. -/
theorem Reader.wholeClosed_iff {α : Type} {kind : SourceKind}
    {reader : Reader α} {text : List Char} {strings : List String} {value : α}
    (read : whole kind reader text = .ok value)
    (isSealed : Sealed text strings) :
    (wholeClosed kind reader text = .ok value ↔
      leavesOpenEach false strings = false) ∧
      (leavesOpenEach false strings = true →
        ∃ line, wholeClosed kind reader text =
          .error (.unclosedComment line)) := by
  obtain ⟨closed, opened⟩ := wholeClosed_eq read
  rw [← isSealed.scan]
  cases found : unclosedComment? text with
  | none =>
      have noMark := unclosedComment?_eq_none_iff.mp found
      refine ⟨iff_of_true (closed found) noMark, ?_⟩
      rw [noMark]
      exact nofun
  | some suffix =>
      have refused := opened suffix found
      have isOpen : leavesOpen false text = true := by
        rw [← Bool.not_eq_false, ← unclosedComment?_eq_none_iff, found]
        exact nofun
      rw [refused, isOpen]
      exact ⟨iff_of_false nofun nofun, fun _ => ⟨_, rfl⟩⟩

/-- The formatted form of a source is read as the same tree if and only if the
string literals leave no comment open; if they do, that is why it is refused. -/
theorem formatted_source_reads_back_iff (text : String) :
    (∀ expr, Expr.read text = .ok expr →
      (Expr.read expr.print = .ok expr ↔
        leavesOpenEach false expr.strings = false) ∧
        (leavesOpenEach false expr.strings = true →
          ∃ line, Expr.read expr.print = .error (.unclosedComment line))) ∧
    ∀ program, Program.read text = .ok program →
      (Program.read program.print = .ok program ↔
        leavesOpenEach false program.strings = false) ∧
        (leavesOpenEach false program.strings = true →
          ∃ line, Program.read program.print =
            .error (.unclosedComment line)) := by
  constructor
  · intro expr read
    have wellFormed := Expr.isWellFormed_of_read read
    rw [Expr.read, Expr.print, String.toList_ofList]
    exact Reader.wholeClosed_iff (Expr.whole_chars wellFormed)
      (expr.isSealed wellFormed)
  · intro program read
    have wellFormed := Program.isWellFormed_of_read read
    obtain ⟨decls⟩ := program
    obtain ⟨closed, opened⟩ :=
      Reader.wholeClosed_iff (Program.whole_chars wellFormed)
        (Program.isSealed wellFormed)
    rw [Program.read, Program.print, String.toList_ofList]
    constructor
    · rw [← closed]
      cases Reader.wholeClosed .program (Reader.many Reader.decl)
        (Program.chars ⟨decls⟩) with
      | error problem =>
          constructor
          · intro same
            cases same
          · intro same
            cases same
      | ok others =>
          constructor
          · intro same
            cases same
            rfl
          · intro same
            cases same
            rfl
    · intro isOpen
      obtain ⟨line, refused⟩ := opened isOpen
      exact ⟨line, by rw [refused]; rfl⟩

theorem Expr.read_of_toOption {text : String} {expr : Expr}
    (read : (Expr.read text).toOption = some expr) :
    Expr.read text = .ok expr := by
  cases answer : Expr.read text with
  | error problem =>
      rw [answer] at read
      cases read
  | ok other =>
      rw [answer] at read
      rw [Option.some.inj read]

/-- Two strings that begin and end a comment are read back without the comment
behind them. -/
theorem formatted_source_reads_back_iff_quoted :
    let expr : Expr := .tuple [.literal (.str "(*"), .literal (.str "*)")]
    Expr.read "(\"(*\", \"*)\") (* marks *)" = .ok expr ∧
      Expr.read expr.print = .ok expr := by
  intro expr
  have read : Expr.read "(\"(*\", \"*)\") (* marks *)" = .ok expr :=
    Expr.read_of_toOption (by decide +kernel)
  exact ⟨read,
    ((formatted_source_reads_back_iff _).1 expr read).1.mpr (by decide)⟩

/-- The comment of the source is dropped, and then the string is taken for the
beginning of one. -/
theorem formatted_source_is_refused :
    let expr : Expr := .literal (.str "(*")
    Expr.read "\"(*\" (* *)" = .ok expr ∧
    Expr.read expr.print = .error (.unclosedComment 1) := by
  intro expr
  constructor
  · exact Expr.read_of_toOption (by decide +kernel)
  · have opened : unclosedComment? expr.chars =
      some ['(', '*', '"'] := by decide
    rw [Expr.read, Expr.print, String.toList_ofList]
    exact (Reader.wholeClosed_eq (Expr.whole_chars (by decide +kernel))).2
      _ opened

end RecursiveQuery
