import Mathlib.Data.List.Infix
import RecursiveQuery.Proofs.BlankedTokens
import RecursiveQuery.Proofs.CommentMarks

/-!
# Comments as blanks

With one blank in place of each comment a text is read as the same tree.  The
search for open comments knows nothing of quotes; as long as no literal contains
the mark of a comment, it finds none open in either text.
-/

namespace RecursiveQuery

/-- How the content of a literal is written, with the closing quote. -/
inductive Spells : List Char → List Char → Prop
  | close : Spells ['"'] []
  | escape {escaped char : Char} {written content : List Char}
      (known : (escaped, char) ∈ Reader.escapes)
        (spells : Spells written content) :
      Spells ('\\' :: escaped :: written) (char :: content)
  | plain {char : Char} {written content : List Char} (noQuote : char ≠ '"')
      (noBackslash : char ≠ '\\') (spells : Spells written content) :
      Spells (char :: written) (char :: content)

namespace Spells

variable {written content : List Char}
variable {rest : List Char}

theorem of_quotedRest {opening text : List Char}
    (read : Reader.quotedRest opening text = .ok content rest) :
    ∃ written, text = written ++ rest ∧ Spells written content := by
  revert content rest
  apply @Reader.quotedRest_induction opening fun text reply =>
    ∀ {content rest : List Char},
    reply = .ok content rest → ∃ written, text = written ++ rest ∧
    Spells written content
  · intro content rest read
    cases read
  · intro rest content after read
    cases read
    exact ⟨['"'], rfl, .close⟩
  · intro escaped char rest reply known induction content after read
    cases reply with
    | ok chars behind =>
        cases read
        obtain ⟨written, rfl, spells⟩ := induction rfl
        exact ⟨'\\' :: escaped :: written, rfl, .escape known spells⟩
    | mismatch position => cases read
    | fatal position => cases read
  · intro escaped rest _ content after read
    cases read
  · intro content after read
    cases read
  · intro char rest reply noQuote noBackslash induction content after read
    cases reply with
    | ok chars behind =>
        cases read
        obtain ⟨written, rfl, spells⟩ := induction rfl
        exact ⟨char :: written, rfl, .plain noQuote noBackslash spells⟩
    | mismatch position => cases read
    | fatal position => cases read

/-- Behind a literal there is code again. -/
theorem segments_append (spells : Spells written content) (rest : List Char) :
    segments .quoted (written ++ rest) =
      written.map .quoted ++ segments .code rest := by
  induction spells with
  | close => rfl
  | @escape escaped char written content known spells induction =>
      have divided : segments .quoted ('\\' :: escaped :: (written ++ rest)) =
          .quoted '\\' :: .quoted escaped ::
            segments .quoted (written ++ rest) := rfl
      rw [List.cons_append, List.cons_append, divided, induction]
      rfl
  | plain noQuote noBackslash spells induction =>
      rw [List.cons_append, segments_quoted noQuote noBackslash, induction]
      rfl

theorem head_content (spells : Spells written content)
    (starts : (written ++ rest).head? = some '*') :
    content.head? = some '*' := by
  cases spells with
  | close => cases starts
  | escape known spells => cases starts
  | plain noQuote noBackslash spells => exact starts

/-- A literal without the mark of a comment opens none. -/
theorem leavesOpen_append (spells : Spells written content)
    (noMark : ¬ ['(', '*'] <:+: content) (rest : List Char) :
    leavesOpen false (written ++ rest) = leavesOpen false rest := by
  induction spells with
  | close => exact leavesOpen_cons_of_ne (by decide) (by decide)
  | @escape escaped char written content known spells induction =>
      have noMarkLater : ¬ ['(', '*'] <:+: content := fun inside =>
        noMark (List.infix_cons inside)
      have noBracket : escaped ≠ '(' := by
        rintro rfl
        revert known
        simp [Reader.escapes]
      have noStar : escaped ≠ '*' := by
        rintro rfl
        revert known
        simp [Reader.escapes]
      rw [List.cons_append, leavesOpen_cons_of_ne (by decide) (by decide),
        List.cons_append, leavesOpen_cons_of_ne noBracket noStar]
      exact induction noMarkLater
  | @plain char written content noQuote noBackslash spells induction =>
      have noMarkLater : ¬ ['(', '*'] <:+: content := fun inside =>
        noMark (List.infix_cons inside)
      rw [List.cons_append, leavesOpen_cons, induction noMarkLater]
      intro isBracket starts
      obtain ⟨more, rfl⟩ :=
        List.head?_eq_some_iff.mp (spells.head_content starts)
      apply noMark
      rw [isBracket]
      exact (List.prefix_append ['(', '*'] more).isInfix

end Spells

def TextPart.isComment : TextPart → Bool
  | comment => true
  | code | quoted => false

/-- Every literal of a text is well formed and does not contain the mark of a
comment. -/
def LiteralsUnmarked (part : TextPart) (text : List Char) : Prop :=
  ∀ content, .literal content ∈ segments part text →
    ∃ chars, content = some chars ∧ ¬ ['(', '*'] <:+: chars

theorem LiteralsUnmarked.behind {part next : TextPart} {text rest : List Char}
    {front : List Segment} (unmarked : LiteralsUnmarked part text)
    (divided : segments part text = front ++ segments next rest) :
    LiteralsUnmarked next rest := by
  intro content member
  apply unmarked
  rw [divided]
  exact List.mem_append_right _ member

/-- The literal behind an opening quote. -/
theorem LiteralsUnmarked.spells {rest : List Char}
    (unmarked : LiteralsUnmarked .code ('"' :: rest)) :
    ∃ written content behind, rest = written ++ behind ∧
      Spells written content ∧ ¬ ['(', '*'] <:+: content := by
  obtain ⟨content, isContent, noMark⟩ :=
    unmarked (literalContent rest) List.mem_cons_self
  rw [literalContent] at isContent
  cases read : Reader.quotedRest ('"' :: rest) rest with
  | ok chars behind =>
      rw [read] at isContent
      cases isContent
      obtain ⟨written, isWritten, spells⟩ := Spells.of_quotedRest read
      exact ⟨written, content, behind, isWritten, spells, noMark⟩
  | mismatch position | fatal position =>
      rw [read] at isContent
      cases isContent

/-- Where literals do not contain the mark of a comment, the search for open
comments finds none in the text nor in the text with blanks. -/
theorem leavesOpen_blanked {part : TextPart} {text other : List Char}
    (blanked : Blanked False part text other)
    (unmarked : LiteralsUnmarked part text) (outside : part ≠ .quoted) :
    leavesOpen part.isComment text = false ∧
      leavesOpen false other = false := by
  match part, text with
  | .quoted, _ => exact absurd rfl outside
  | .code, [] =>
      cases blanked.blanks
      exact ⟨rfl, rfl⟩
  | .comment, [] => exact absurd List.mem_cons_self blanked.closed
  | .code, char :: rest =>
      by_cases quote : char = '"'
      · subst quote
        obtain ⟨written, content, behind, rfl, spells, noMark⟩ :=
          unmarked.spells
        have divided : segments .code ('"' :: (written ++ behind)) =
            (.literal (literalContent (written ++ behind)) ::
              written.map .quoted) ++ segments .code behind :=
          congrArg _ (spells.segments_append behind)
        obtain ⟨after, rfl, later⟩ := blanked.behind divided
        have copied : (written.map Segment.quoted).flatMap Segment.blanked =
          written := by
          rw [List.flatMap_map]
          exact List.flatMap_singleton' written
        obtain ⟨closes, closes'⟩ := @leavesOpen_blanked .code behind after
          (later.weaken False.elim) (unmarked.behind divided) nofun
        have passes : ∀ more, leavesOpen false ('"' :: (written ++ more)) =
          leavesOpen false more := by
          intro more
          rw [leavesOpen_cons_of_ne (by decide) (by decide)]
          exact spells.leavesOpen_append noMark more
        rw [List.flatMap_cons, copied, List.append_assoc]
        exact ⟨(passes behind).trans closes, (passes after).trans closes'⟩
      · by_cases mark : char = '(' ∧ rest.head? = some '*'
        · obtain ⟨rfl, starts⟩ := mark
          obtain ⟨more, rfl⟩ := List.head?_eq_some_iff.mp starts
          obtain ⟨after, rfl, later⟩ := blanked.behind_mark
          obtain ⟨closes, closes'⟩ :=
            @leavesOpen_blanked .comment more after later
            (@LiteralsUnmarked.behind _ _ _ more [.comment] unmarked rfl) nofun
          exact ⟨(leavesOpen_mark false more).trans closes,
            (leavesOpen_cons_of_ne (by decide) (by decide)).trans closes'⟩
        · have noMark : char = '(' → rest.head? ≠ some '*' :=
            fun isBracket starts => mark ⟨isBracket, starts⟩
          obtain ⟨after, rfl, later⟩ := blanked.behind_code quote noMark
          obtain ⟨closes, closes'⟩ := @leavesOpen_blanked .code rest after later
            (@LiteralsUnmarked.behind _ _ _ rest [.code char] unmarked
              (segments_code quote noMark))
            nofun
          refine ⟨(leavesOpen_cons noMark).trans closes,
            (leavesOpen_cons ?_).trans closes'⟩
          intro isBracket
          exact mt (later.head_iff (by decide) (by decide)).mp
            (noMark isBracket)
  | .comment, char :: rest =>
      by_cases mark : char = '*' ∧ rest.head? = some ')'
      · obtain ⟨rfl, ends⟩ := mark
        obtain ⟨more, rfl⟩ := List.head?_eq_some_iff.mp ends
        obtain ⟨closes, closes'⟩ := @leavesOpen_blanked .code more other
          (blanked.of_segments rfl) unmarked nofun
        exact ⟨(leavesOpen_mark true more).trans closes, closes'⟩
      · have noMark : char = '*' → rest.head? ≠ some ')' :=
          fun isStar ends => mark ⟨isStar, ends⟩
        have same := segments_comment noMark
        rw [LiteralsUnmarked, same] at unmarked
        obtain ⟨closes, closes'⟩ := @leavesOpen_blanked .comment rest other
          (blanked.of_segments same) unmarked nofun
        exact ⟨(leavesOpen_cons noMark).trans closes, closes'⟩
termination_by text.length

/-! ## Whole texts -/

namespace Blanked

variable {malformed : Prop} {text other : List Char}

theorem eq_nil_iff (blanked : Blanked malformed .code text other) :
    text = [] ↔ other = [] := by
  have same := blanked.head_map (fun _ => ()) rfl
  rw [← List.head?_eq_none_iff, ← List.head?_eq_none_iff,
    ← Option.map_eq_none_iff, ← same, Option.map_eq_none_iff]

theorem wellFormed_of_nil (blanked : Blanked malformed .code [] other) :
    ¬ malformed :=
  fun isMalformed => List.not_mem_nil (blanked.ahead isMalformed)

end Blanked

namespace Reader

variable {α : Type} {kind : SourceKind} {reader : Reader α} {malformed : Prop}
  {text other : List Char} {value : α}

theorem whole_eq_ok_iff : whole kind reader text = .ok value ↔
    ∃ rest, reader text = .ok value rest ∧ skip rest = .ok () [] := by
  constructor
  · intro read
    rw [whole] at read
    cases found : reader text with
    | ok result rest =>
        rw [found] at read
        dsimp only at read
        cases skipped : skip rest with
        | ok _ left =>
            rw [skipped] at read
            cases left with
            | nil =>
                cases read
                exact ⟨rest, rfl, skipped⟩
            | cons char left => cases read
        | mismatch position | fatal position =>
            rw [skipped] at read
            cases read
    | mismatch position | fatal position =>
        rw [found] at read
        cases read
  · intro read
    obtain ⟨rest, found, skipped⟩ := read
    exact whole_of_ok found skipped

theorem wholeClosed_eq_ok_iff : wholeClosed kind reader text = .ok value ↔
    leavesOpen false text = false ∧ whole kind reader text = .ok value := by
  rw [wholeClosed, ← unclosedComment?_eq_none_iff]
  cases unclosedComment? text with
  | none => exact (and_iff_right rfl).symm
  | some suffix =>
      constructor
      · intro read
        cases read
      · intro read
        cases read.1

/-- Nothing but blanks and comments is left of both texts or of none. -/
theorem skip_blanked (blanked : Blanked malformed .code text other) :
    (skip text = .ok () [] ↔ skip other = .ok () []) ∧
    (skip text = .ok () [] → ¬ malformed) := by
  obtain ⟨rest, after, skipped, skipped', -, later⟩ :=
    @skipFrom_blanked malformed text other none blanked
  rw [skip, skipped, ← skip, skipped']
  simp only [Reply.ok.injEq, true_and]
  refine ⟨later.eq_nil_iff, ?_⟩
  intro isEmpty
  rw [isEmpty] at later
  exact later.wellFormed_of_nil

/-- A text is read to its end if and only if the text with blanks is, and not if
a literal is malformed. -/
theorem whole_blanked
    (parallel : ∀ limit bound,
      Parallel (blankedTexts malformed) 0 limit bound reader reader)
    (blanked : Blanked malformed .code text other) :
    (whole kind reader text = .ok value ↔ whole kind reader other = .ok value) ∧
      (whole kind reader text = .ok value → ¬ malformed) := by
  have agrees := (parallel _ _ text other blanked (Nat.lt_succ_self _)
    (Nat.lt_succ_self _)).agrees
  rw [whole_eq_ok_iff, whole_eq_ok_iff]
  generalize reader text = reply at agrees
  generalize reader other = reply' at agrees
  cases agrees with
  | ok later =>
      obtain ⟨ended, wellFormed⟩ := skip_blanked later
      simp only [Reply.ok.injEq, and_assoc, exists_and_left, exists_eq_left']
      exact ⟨and_congr_right fun _ => ended, fun read => wellFormed read.2⟩
  | mismatch => simp
  | fatal => simp

/-- A text is read as a value if and only if the text with blanks is. -/
theorem wholeClosed_blankComments
    (parallel : ∀ malformed limit bound,
      Parallel (blankedTexts malformed) 0 limit bound reader reader)
    (closed : .unclosed ∉ segments .code text)
    (unmarked : ∀ content, .literal (some content) ∈ segments .code text →
      ¬ ['(', '*'] <:+: content) :
    wholeClosed kind reader text = .ok value ↔
      wholeClosed kind reader (blankComments .code text) = .ok value := by
  have blanked : Blanked (.literal none ∈ segments .code text) .code text
      (blankComments .code text) := ⟨rfl, closed, id⟩
  obtain ⟨same, wellFormed⟩ :=
    @whole_blanked α kind reader _ _ _ value (parallel _) blanked
  have closes : whole kind reader text = .ok value →
    leavesOpen false text = false ∧
      leavesOpen false (blankComments .code text) = false := by
    intro read
    apply @leavesOpen_blanked .code text _ (blanked.weaken False.elim) _ nofun
    intro content member
    cases content with
    | none => exact absurd member (wellFormed read)
    | some chars => exact ⟨chars, rfl, unmarked chars member⟩
  rw [wholeClosed_eq_ok_iff, wholeClosed_eq_ok_iff]
  constructor
  · intro read
    exact ⟨(closes read.2).2, same.mp read.2⟩
  · intro read
    exact ⟨(closes (same.mpr read.2)).1, same.mpr read.2⟩

end Reader

theorem Program.read_eq_ok_iff {text : String} {program : Program} :
    Program.read text = .ok program ↔
      Reader.wholeClosed .program (Reader.many Reader.decl) text.toList =
        .ok program.decls := by
  obtain ⟨decls⟩ := program
  rw [Program.read]
  cases Reader.wholeClosed .program (Reader.many Reader.decl) text.toList with
  | error problem =>
      constructor
      · intro read
        cases read
      · intro read
        cases read
  | ok found =>
      constructor
      · intro read
        cases read
        rfl
      · intro read
        cases read
        rfl

/-- Comments are equivalent to white space: with one blank in place of each
comment a text is read as the same expression or program, or as none. -/
theorem comments_read_as_blanks (text : String)
    (noMarkInLiteral : ∀ content, .literal (some content) ∈
      segments .code text.toList → ¬ ['(', '*'] <:+: content)
    (commentsClosed : .unclosed ∉ segments .code text.toList) :
    (∀ expr, Expr.read text = .ok expr ↔
      Expr.read (String.ofList (blankComments .code text.toList)) = .ok expr) ∧
    ∀ program, Program.read text = .ok program ↔
      Program.read (String.ofList (blankComments .code text.toList)) =
        .ok program := by
  have tokens := Reader.parallelTokens
  constructor
  · intro expr
    rw [Expr.read, Expr.read, String.toList_ofList]
    exact Reader.wholeClosed_blankComments
      (fun malformed _ _ => (tokens malformed).expr.weaken (Nat.zero_le _))
      commentsClosed
      noMarkInLiteral
  · intro program
    rw [Program.read_eq_ok_iff, Program.read_eq_ok_iff, String.toList_ofList]
    exact Reader.wholeClosed_blankComments
      (fun malformed _ _ => (tokens malformed).decl.many)
      commentsClosed noMarkInLiteral

/-- Comments between words, brackets, an operator and a literal.  One of them
contains a quote, and the literal contains a bracket and a star with an escaped
quote between them. -/
theorem comments_read_as_blanks_equation :
    let text := "f(* \" *)[x] =(**)\"(\\\"*\""
    let expr : Expr := .binary .eq (.apply (.var "f") (.list [.var "x"]))
      (.literal (.str "(\"*"))
    String.ofList (blankComments .code text.toList) = "f [x] = \"(\\\"*\"" ∧
      Expr.read text = .ok expr := by
  intro text expr
  have divided : segments .code text.toList =
    [.code 'f', .comment, .code '[', .code 'x', .code ']',
      .code ' ', .code '=', .comment, .literal (some ['(', '"', '*']),
      .quoted '(', .quoted '\\',
      .quoted '"', .quoted '*', .quoted '"'] := by
    decide +kernel
  have blanked : String.ofList (blankComments .code text.toList) =
    expr.print := by
    rw [blankComments, divided]
    decide +kernel
  have unmarked : ∀ content, .literal (some content) ∈
    segments .code text.toList → ¬ ['(', '*'] <:+: content := by
    rw [divided]
    intro content member
    simp only [List.mem_cons, reduceCtorEq, Segment.literal.injEq,
      Option.some.injEq, List.not_mem_nil, or_false, false_or] at member
    rw [member]
    decide
  have read : Expr.read expr.print = .ok expr := by
    rw [Expr.read, Expr.print, String.toList_ofList]
    exact Reader.wholeClosed_eq_ok_iff.mpr
      ⟨by decide +kernel, Expr.whole_chars (by decide +kernel)⟩
  have same :=
    (comments_read_as_blanks text unmarked (by rw [divided]; decide)).1 expr
  rw [blanked] at same
  exact ⟨blanked.trans (by decide +kernel), same.mpr read⟩

end RecursiveQuery
