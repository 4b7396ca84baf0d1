import Mathlib.Data.List.TakeWhile
import RecursiveQuery.Proofs.GrammarProgress
import RecursiveQuery.Reader.Source

/-!
# Positions of read errors

Readers fail at suffixes of their text, so the length of such a suffix tells how
many characters stand in front of it.  An error therefore names an actual place
of the text: its line counts line ends, its column the characters behind the
last one.
-/

namespace RecursiveQuery

/-- The position behind some characters.  The line counts the line ends among
them, the column the characters behind the last line end. -/
def Position.IsBehind (position : Position) (before : List Char) : Prop :=
  position.line = before.count '\n' + 1 ∧
    ∃ lines line, before = lines ++ line ∧
    (lines = [] ∨ lines.getLast? = some '\n') ∧
      '\n' ∉ line ∧ position.column = line.length + 1

/-- An actual position of a text, with the beginning of what stands there. -/
def Position.Shows (position : Position) (text : List Char) (found : String) :
    Prop :=
  ∃ before after, text = before ++ after ∧ position.IsBehind before ∧
    found = String.ofList (after.take 16)

theorem Position.ofSuffix_isBehind (before after : List Char) :
    (Position.ofSuffix (before ++ after) after).IsBehind before := by
  have front : (before ++ after).take
    ((before ++ after).length - after.length) = before := by
    simp
  let kept := before.reverse.takeWhile (· != '\n')
  let dropped := before.reverse.dropWhile (· != '\n')
  have divided : before = dropped.reverse ++ kept.reverse := by
    rw [← List.reverse_append, List.takeWhile_append_dropWhile,
      List.reverse_reverse]
  have ends : dropped.reverse = [] ∨ dropped.reverse.getLast? = some '\n' := by
    rw [List.reverse_eq_nil_iff, List.getLast?_reverse]
    have stops := List.head?_dropWhile_not (· != '\n') before.reverse
    cases first : dropped with
    | nil => exact .inl rfl
    | cons char others =>
        rw [show before.reverse.dropWhile (· != '\n') = char :: others from
          first] at stops
        exact .inr (congrArg some (by simpa using stops))
  have noLineEnd : '\n' ∉ kept.reverse := by
    intro member
    have kept := List.mem_takeWhile_imp (List.mem_reverse.mp member)
    simp at kept
  rw [Position.ofSuffix, front]
  exact ⟨rfl, dropped.reverse, kept.reverse, divided, ends,
    noLineEnd, by rw [List.length_reverse]⟩

theorem Position.shows_of_suffix {text suffix : List Char}
    (isSuffix : suffix <:+ text) : (Position.ofSuffix text suffix).Shows text
    (String.ofList (suffix.take 16)) := by
  obtain ⟨before, rfl⟩ := isSuffix
  exact ⟨before, suffix, rfl, Position.ofSuffix_isBehind before suffix, rfl⟩

namespace Reader

variable {α : Type} {gap : Nat} {kind : SourceKind} {reader : Reader α}
  {text : List Char}
  {position : Position} {problem : ReadProblem} {found : String}

theorem shows_of_whole (advances : reader.Advances gap)
    (refused : whole kind reader text =
      .error (.problem position problem found)) :
    position.Shows text found := by
  have leaves := advances text
  rw [whole] at refused
  generalize reader text = reply at leaves refused
  cases reply with
  | mismatch place =>
      cases refused
      exact Position.shows_of_suffix leaves
  | fatal place =>
      cases refused
      exact Position.shows_of_suffix leaves.1
  | ok value rest =>
      have skipped := advances_skip rest
      dsimp only at refused
      generalize skip rest = reply at skipped refused
      cases reply with
      | mismatch place =>
          cases refused
          exact Position.shows_of_suffix (List.IsSuffix.trans skipped leaves.1)
      | fatal place =>
          cases refused
          exact Position.shows_of_suffix (skipped.1.trans leaves.1)
      | ok _ left =>
          cases left with
          | nil => cases refused
          | cons char left =>
              cases refused
              exact Position.shows_of_suffix (skipped.1.trans leaves.1)

theorem shows_of_wholeClosed (advances : reader.Advances gap)
    (refused : wholeClosed kind reader text =
      .error (.problem position problem found)) :
    position.Shows text found := by
  rw [wholeClosed] at refused
  cases open? : unclosedComment? text with
  | some suffix =>
      rw [open?] at refused
      cases refused
  | none =>
      rw [open?] at refused
      exact shows_of_whole advances refused

end Reader

/-- A text is refused as a program, an expression, a pattern or a type. -/
def Refused (text : String) (error : ReadError) : Prop :=
  Program.read text = .error error ∨ Expr.read text = .error error ∨
    Pattern.read text = .error error ∨ Ty.read text = .error error

theorem shows_of_refused {text : String} {position : Position}
    {problem : ReadProblem} {found : String}
    (refused : Refused text (.problem position problem found)) :
    position.Shows text.toList found := by
  rcases refused with program | expr | pattern | type
  · have decls : (Reader.many Reader.decl).Advances 0 :=
      .of_parallel fun _ => (Reader.advances_of_inGrammar .decl).parallel.many
    apply @Reader.shows_of_wholeClosed _ _ .program _ _ _ problem _ decls
    rw [Program.read] at program
    cases read :
      Reader.wholeClosed .program (Reader.many Reader.decl) text.toList with
    | ok found =>
        rw [read] at program
        cases program
    | error error =>
        rw [read] at program
        cases program
        rfl
  · exact Reader.shows_of_wholeClosed (Reader.advances_of_inGrammar .expr) expr
  · exact Reader.shows_of_whole (Reader.advances_of_inGrammar .pattern) pattern
  · exact Reader.shows_of_whole (Reader.advances_of_inGrammar .type) type

namespace Reader

/-- Reading makes progress and ends on every text.  A reader of the grammar that
succeeds leaves a proper suffix of its text, and one that fails reports a
suffix.  Hence repetitions need no bound and never meet an item that consumes
nothing, patterns, types and expressions are read by recursion on shorter texts,
and every error shows an actual position of the text. -/
theorem reading_makes_progress (text : String) :
    (∀ {α : Type} (reader : Reader α), InGrammar reader →
      reader.Advances 1 ∧ Guarded (round reader) (many reader)) ∧
    Guarded patternLevel pattern ∧ Guarded typeLevel type ∧
    GuardedBoth exprLevel operationLevel expr operation ∧
    ∀ position problem found, Refused text (.problem position problem found) →
      position.Shows text.toList found := by
  refine ⟨?_, guarded_pattern, guarded_type, guarded_expr, ?_⟩
  · intro α reader inGrammar
    have advances := advances_of_inGrammar inGrammar
    exact ⟨advances, guarded_many advances⟩
  · intro position problem found refused
    exact shows_of_refused refused

/-- A bracket on the second line that nothing opens. -/
theorem reading_makes_progress_second_line :
    InGrammar expr ∧ expr.Advances 1 ∧
      Expr.read "a\n )" = .error (.problem ⟨2, 2⟩ (.leftover .expr) ")") ∧
      Position.Shows ⟨2, 2⟩ "a\n )".toList ")" := by
  have refused : Expr.read "a\n )" =
    .error (.problem ⟨2, 2⟩ (.leftover .expr) ")") := by
    rfl
  obtain ⟨progress, _, _, _, placed⟩ := reading_makes_progress "a\n )"
  exact ⟨.expr, (progress expr .expr).1, refused,
    placed _ _ _ (.inr (.inl refused))⟩

end Reader

end RecursiveQuery
