import RecursiveQuery.Proofs.ParallelReading

/-!
# Tokens beside comments

A text consists of code, comments and string literals.  A blank in place of each
comment changes no token: blanks and comments are skipped alike in front of a
token, and within a token there are none.  Hence all tokens are read in parallel
on a text and on the same text with blanks.
-/

namespace RecursiveQuery

variable {char : Char} {rest : List Char}

/-- Where in a text a character stands. -/
inductive TextPart where
  | code
  | comment
  | quoted

/-- What a text consists of: characters of code, whole comments, the opening
quotes of literals with their content if they are well formed, the characters
behind these up to the closing quotes, and the end of the text within a
comment. -/
inductive Segment where
  | code (char : Char)
  | comment
  | literal (content : Option (List Char))
  | quoted (char : Char)
  | unclosed
deriving DecidableEq

/-- What the literal behind an opening quote stands for, if it is well
formed. -/
def literalContent (rest : List Char) : Option (List Char) :=
  match Reader.quotedRest ('"' :: rest) rest with
  | .ok content _ => some content
  | .mismatch _ | .fatal _ => none

/-- Divide a text from left to right.  Neither do comments nest nor has a quote
a meaning in them; in a literal a backslash takes the next character along. -/
def segments : TextPart → List Char → List Segment
  | .code, [] => []
  | .code, '(' :: '*' :: rest => .comment :: segments .comment rest
  | .code, '"' :: rest =>
      .literal (literalContent rest) :: segments .quoted rest
  | .code, char :: rest => .code char :: segments .code rest
  | .comment, [] => [.unclosed]
  | .comment, '*' :: ')' :: rest => segments .code rest
  | .comment, _ :: rest => segments .comment rest
  | .quoted, [] => []
  | .quoted, '\\' :: char :: rest =>
      .quoted '\\' :: .quoted char :: segments .quoted rest
  | .quoted, '"' :: rest => .quoted '"' :: segments .code rest
  | .quoted, char :: rest => .quoted char :: segments .quoted rest

/-- A segment with a blank in place of a comment. -/
def Segment.blanked : Segment → List Char
  | code char => [char]
  | comment => [' ']
  | literal _ => ['"']
  | quoted char => [char]
  | unclosed => []

/-- A text with one blank in place of each comment outside literals. -/
def blankComments (part : TextPart) (text : List Char) : List Char :=
  (segments part text).flatMap Segment.blanked

theorem segments_code (noQuote : char ≠ '"')
    (noMark : char = '(' → rest.head? ≠ some '*') :
    segments .code (char :: rest) = .code char :: segments .code rest := by
  rw [segments]
  · intro more isBracket starts
    exact noMark isBracket (by rw [starts]; rfl)
  · exact noQuote

theorem segments_comment (noMark : char = '*' → rest.head? ≠ some ')') :
    segments .comment (char :: rest) = segments .comment rest := by
  rw [segments]
  intro more isStar ends
  exact noMark isStar (by rw [ends]; rfl)

theorem segments_quoted (noQuote : char ≠ '"') (noBackslash : char ≠ '\\') :
    segments .quoted (char :: rest) =
      .quoted char :: segments .quoted rest := by
  rw [segments]
  · exact fun _ _ isBackslash => absurd isBackslash noBackslash
  · exact noQuote

/-- A text in one of the parts, beside the same text with blanks for comments.
All comments are closed.  A malformed literal is still ahead if there was
one. -/
structure Blanked (malformed : Prop) (part : TextPart)
    (text other : List Char) : Prop where
  blanks : other = blankComments part text
  closed : .unclosed ∉ segments part text
  ahead : malformed → .literal none ∈ segments part text

namespace Blanked

variable {malformed : Prop} {part next : TextPart} {text rest other : List Char}
variable {char : Char}

theorem weaken {fewer : Prop} (blanked : Blanked malformed part text other)
    (implied : fewer → malformed) : Blanked fewer part text other :=
  { blanked with ahead :=
    fun isMalformed => blanked.ahead (implied isMalformed) }

/-- What stands behind some segments of a text. -/
theorem behind {front : List Segment}
    (blanked : Blanked malformed part text other)
    (divided : segments part text = front ++ segments next rest) :
    ∃ after, other = front.flatMap Segment.blanked ++ after ∧
      Blanked (malformed ∧ .literal none ∉ front) next rest after := by
  obtain ⟨blanks, closed, ahead⟩ := blanked
  rw [blankComments, divided, List.flatMap_append] at blanks
  rw [divided] at closed ahead
  refine ⟨_, blanks, rfl,
    fun isOpen => closed (List.mem_append_right _ isOpen), ?_⟩
  intro isMalformed
  exact (List.mem_append.mp (ahead isMalformed.1)).resolve_left isMalformed.2

theorem behind_wellFormed {front : List Segment}
    (blanked : Blanked malformed part text other)
    (divided : segments part text = front ++ segments next rest)
    (wellFormed : .literal none ∉ front) :
    ∃ after, other = front.flatMap Segment.blanked ++ after ∧
      Blanked malformed next rest after := by
  obtain ⟨after, blanks, later⟩ := blanked.behind divided
  exact ⟨after, blanks,
    later.weaken fun isMalformed => ⟨isMalformed, wellFormed⟩⟩

theorem of_segments (blanked : Blanked malformed part text other)
    (same : segments part text = segments next rest) :
    Blanked malformed next rest other := by
  obtain ⟨after, rfl, later⟩ :=
    @behind_wellFormed _ _ _ _ rest _ [] blanked same List.not_mem_nil
  exact later

theorem behind_code (blanked : Blanked malformed .code (char :: rest) other)
    (noQuote : char ≠ '"') (noMark : char = '(' → rest.head? ≠ some '*') :
    ∃ after, other = char :: after ∧ Blanked malformed .code rest after :=
  @behind_wellFormed _ _ _ _ rest _ [.code char] blanked
    (segments_code noQuote noMark) (by simp)

theorem behind_mark
    (blanked : Blanked malformed .code ('(' :: '*' :: rest) other) :
    ∃ after, other = ' ' :: after ∧ Blanked malformed .comment rest after :=
  @behind_wellFormed _ _ _ _ rest _ [.comment] blanked rfl (by simp)

theorem behind_quote (blanked : Blanked malformed .code ('"' :: rest) other) :
    ∃ after, other = '"' :: after ∧
      Blanked (malformed ∧ literalContent rest ≠ none) .quoted rest after := by
  obtain ⟨after, blanks, later⟩ :=
    @behind _ _ _ _ rest _ [.literal (literalContent rest)] blanked rfl
  refine ⟨after, blanks, later.weaken ?_⟩
  intro isMalformed
  refine ⟨isMalformed.1, ?_⟩
  intro here
  exact isMalformed.2 (Segment.literal.inj (List.mem_singleton.mp here)).symm

theorem behind_end (blanked : Blanked malformed .quoted ('"' :: rest) other) :
    ∃ after, other = '"' :: after ∧ Blanked malformed .code rest after :=
  @behind_wellFormed _ _ _ _ rest _ [.quoted '"'] blanked rfl (by simp)

theorem behind_escape {escaped : Char}
    (blanked : Blanked malformed .quoted ('\\' :: escaped :: rest) other) :
    ∃ after, other = '\\' :: escaped :: after ∧
      Blanked malformed .quoted rest after :=
  @behind_wellFormed _ _ _ _ rest _ [.quoted '\\', .quoted escaped] blanked rfl
    (by simp)

theorem behind_quoted (blanked : Blanked malformed .quoted (char :: rest) other)
    (noQuote : char ≠ '"') (noBackslash : char ≠ '\\') :
    ∃ after, other = char :: after ∧ Blanked malformed .quoted rest after :=
  @behind_wellFormed _ _ _ _ rest _ [.quoted char] blanked
    (segments_quoted noQuote noBackslash) (by simp)

/-- The two texts start alike, but for a bracket in place of a blank. -/
theorem head_map {α : Type} (blanked : Blanked malformed .code text other)
    (test : Char → α) (alike : test '(' = test ' ') :
    other.head?.map test = text.head?.map test := by
  cases text with
  | nil =>
      rw [blanked.blanks]
      rfl
  | cons char rest =>
      by_cases quote : char = '"'
      · subst quote
        obtain ⟨after, rfl, -⟩ := blanked.behind_quote
        rfl
      · by_cases mark : char = '(' ∧ rest.head? = some '*'
        · obtain ⟨rfl, starts⟩ := mark
          obtain ⟨more, rfl⟩ := List.head?_eq_some_iff.mp starts
          obtain ⟨after, rfl, -⟩ := blanked.behind_mark
          exact congrArg some alike.symm
        · obtain ⟨after, rfl, -⟩ :=
            blanked.behind_code quote fun isBracket starts =>
              mark ⟨isBracket, starts⟩
          rfl

theorem head_iff (blanked : Blanked malformed .code text other)
    (noBlank : char ≠ ' ') (noBracket : char ≠ '(') :
    other.head? = some char ↔ text.head? = some char := by
  have same := blanked.head_map (· == char)
    ((beq_false_of_ne noBracket.symm).trans (beq_false_of_ne noBlank.symm).symm)
  have found : ∀ chars : List Char, chars.head? = some char ↔
      chars.head?.map (· == char) = some true := by
    intro chars
    simp
  rw [found, found, same]

end Blanked

namespace Reader

variable {malformed : Prop} {text other : List Char}
variable {char : Char} {expected : List Char}

theorem skip_cons_of_isBlank (blank : isBlank char = true) :
    skip (char :: rest) = skip rest := by
  have noBracket : char ≠ '(' := by
    intro isBracket
    rw [isBracket] at blank
    exact absurd blank (by decide)
  rw [skip, skipFrom.eq_def]
  split <;> simp_all

/-- Nothing is skipped at the start of a text. -/
def startsSolid : List Char → Prop
  | [] => True
  | char :: rest => isBlank char = false ∧ (char = '(' → rest.head? ≠ some '*')

/-- Skipping blanks and comments, from code or from within a comment. -/
theorem skipFrom_blanked {opened : Option (List Char)}
    (blanked : Blanked malformed (if opened.isSome then .comment else .code)
      text other) :
    ∃ rest after, skipFrom opened text = .ok () rest ∧
      skip other = .ok () after ∧
      startsSolid rest ∧ Blanked malformed .code rest after := by
  fun_induction skipFrom opened text generalizing other with
  | case1 =>
      cases blanked.blanks
      exact ⟨[], [], rfl, rfl, trivial, blanked⟩
  | case2 start => exact absurd List.mem_cons_self blanked.closed
  | case3 start rest induction => exact induction (blanked.of_segments (by rfl))
  | case4 start char rest noMark induction =>
      apply induction
      apply blanked.of_segments
      apply segments_comment
      intro isStar ends
      obtain ⟨more, rfl⟩ := List.head?_eq_some_iff.mp ends
      exact noMark more isStar rfl
  | case5 rest induction =>
      obtain ⟨after, rfl, later⟩ := blanked.behind_mark
      rw [skip_cons_of_isBlank (by decide)]
      exact induction later
  | case6 char rest noMark isBlank induction =>
      obtain ⟨after, rfl, later⟩ := blanked.behind_code
        (fun isQuote => absurd isBlank (by rw [isQuote]; decide))
        (fun isBracket => absurd isBlank (by rw [isBracket]; decide))
      rw [skip_cons_of_isBlank isBlank]
      exact induction later
  | case7 char rest noMark noBlank =>
      have solid : isBlank char = false := Bool.eq_false_iff.mpr noBlank
      have plain : char = '(' → rest.head? ≠ some '*' := by
        intro isBracket starts
        obtain ⟨more, rfl⟩ := List.head?_eq_some_iff.mp starts
        exact noMark more isBracket rfl
      refine ⟨char :: rest, other, rfl, ?_, ⟨solid, plain⟩, blanked⟩
      by_cases quote : char = '"'
      · subst quote
        obtain ⟨after, rfl, -⟩ := blanked.behind_quote
        exact skip_of_head solid (.inl (by decide))
      · obtain ⟨after, rfl, later⟩ := blanked.behind_code quote plain
        apply skip_of_head solid
        by_cases bracket : char = '('
        · exact .inr
            (mt (later.head_iff (by decide) (by decide)).mp (plain bracket))
        · exact .inl bracket

/-- A character that is neither blank nor the first one of a comment or a
literal. -/
def isPlain (char : Char) : Bool :=
  char != ' ' && char != '(' && char != '"'

theorem dropExpected_eq_none {want : Char} (other : text.head? ≠ some want) :
    dropExpected (want :: expected) text = none := by
  cases text with
  | nil => rfl
  | cons char rest =>
      rw [dropExpected, if_neg]
      rintro rfl
      exact other rfl

theorem dropExpected_blanked (plain : expected.all isPlain = true)
    (blanked : Blanked malformed .code text other) :
    (∃ rest after, dropExpected expected text = some rest ∧
      dropExpected expected other = some after ∧
      Blanked malformed .code rest after) ∨
    (dropExpected expected text = none ∧
      dropExpected expected other = none) := by
  induction expected generalizing text other with
  | nil => exact .inl ⟨text, other, rfl, rfl, blanked⟩
  | cons want expected induction =>
      simp only [List.all_cons, isPlain, Bool.and_eq_true, bne_iff_ne] at plain
      obtain ⟨⟨⟨noBlank, noBracket⟩, noQuote⟩, restPlain⟩ := plain
      by_cases starts : text.head? = some want
      · obtain ⟨rest, rfl⟩ := List.head?_eq_some_iff.mp starts
        obtain ⟨after, rfl, later⟩ :=
          blanked.behind_code noQuote fun isBracket =>
          absurd isBracket noBracket
        rw [dropExpected, if_pos rfl, dropExpected, if_pos rfl]
        exact induction restPlain later
      · exact .inr ⟨dropExpected_eq_none starts,
          dropExpected_eq_none
            (mt (blanked.head_iff noBlank noBracket).mp starts)⟩

/-- A text and the text with blanks.  The places of failures do not matter. -/
def blankedTexts (malformed : Prop) : TextRelation where
  texts := Blanked malformed .code
  places := fun _ _ => True
  places_of_texts := fun _ _ _ => trivial

theorem parallel_skip (limit bound : Nat) :
    Parallel (blankedTexts malformed) 0 limit bound skip skip := by
  apply Parallel.of_advances advances_skip advances_skip
  intro text other blanked
  obtain ⟨rest, after, read, read', -, later⟩ :=
    @skipFrom_blanked malformed text other none blanked
  rw [skip, read, ← skip, read']
  exact .ok later

theorem parallel_exactly (nonempty : expected ≠ [])
    (plain : expected.all isPlain = true) (limit bound : Nat) :
    Parallel (blankedTexts malformed) 1 limit bound (exactly expected)
      (exactly expected) := by
  apply Parallel.of_advances (advances_exactly nonempty)
    (advances_exactly nonempty)
  intro text other blanked
  rw [exactly, exactly]
  rcases dropExpected_blanked plain blanked with found | missing
  · obtain ⟨rest, after, dropped, dropped', later⟩ := found
    rw [dropped, dropped']
    exact .ok later
  · rw [missing.1, missing.2]
    exact .mismatch trivial

theorem notBefore_eq (excluded : Char → Bool) (text : List Char) :
    notBefore excluded text =
      if text.head?.map excluded = some true then .mismatch text
      else .ok () text := by
  cases text with
  | nil => rfl
  | cons char rest => simp [notBefore]

theorem parallel_notBefore {excluded : Char → Bool}
    (alike : excluded '(' = excluded ' ') (limit bound : Nat) :
    Parallel (blankedTexts malformed) 0 limit bound (notBefore excluded)
      (notBefore excluded) := by
  apply Parallel.of_advances (advances_notBefore excluded)
    (advances_notBefore excluded)
  intro text other blanked
  rw [notBefore_eq, notBefore_eq, blanked.head_map excluded alike]
  split
  · exact .mismatch trivial
  · exact .ok blanked

theorem takeWhile_eq_nil {keep : Char → Bool}
    (stops : text.head?.map keep ≠ some true) :
    text.takeWhile keep = [] ∧ text.dropWhile keep = text := by
  cases text with
  | nil => exact ⟨rfl, rfl⟩
  | cons char rest =>
      have stop : ¬ keep char = true := fun kept => stops (congrArg some kept)
      exact ⟨List.takeWhile_cons_of_neg stop, List.dropWhile_cons_of_neg stop⟩

/-- The characters of one kind that a text starts with. -/
theorem takeWhile_blanked {keep : Char → Bool} (noBlank : keep ' ' = false)
    (noBracket : keep '(' = false) (noQuote : keep '"' = false)
    (blanked : Blanked malformed .code text other) :
    other.takeWhile keep = text.takeWhile keep ∧
      Blanked malformed .code (text.dropWhile keep) (other.dropWhile keep) := by
  induction text generalizing other with
  | nil =>
      cases blanked.blanks
      exact ⟨rfl, blanked⟩
  | cons char rest induction =>
      by_cases kept : keep char = true
      · obtain ⟨after, rfl, later⟩ := blanked.behind_code
          (fun isQuote => by rw [isQuote, noQuote] at kept; cases kept)
          (fun isBracket => by rw [isBracket, noBracket] at kept; cases kept)
        obtain ⟨same, behind⟩ := induction later
        rw [List.takeWhile_cons_of_pos kept, List.takeWhile_cons_of_pos kept,
          List.dropWhile_cons_of_pos kept, List.dropWhile_cons_of_pos kept,
          same]
        exact ⟨rfl, behind⟩
      · have stops : (char :: rest).head?.map keep ≠ some true := by
          simpa using kept
        have stops' : other.head?.map keep ≠ some true := by
          rwa [blanked.head_map keep (noBracket.trans noBlank.symm)]
        rw [(takeWhile_eq_nil stops).1, (takeWhile_eq_nil stops).2,
          (takeWhile_eq_nil stops').1, (takeWhile_eq_nil stops').2]
        exact ⟨rfl, blanked⟩

theorem agrees_word (blanked : Blanked malformed .code text other) :
    (word text).Agrees (blankedTexts malformed) (word other) := by
  have starts := blanked.head_map isWordStart (by decide)
  cases text with
  | nil =>
      cases blanked.blanks
      exact .mismatch trivial
  | cons char rest =>
      by_cases start : isWordStart char = true
      · obtain ⟨after, rfl, later⟩ := blanked.behind_code
          (fun isQuote => absurd start (by rw [isQuote]; decide))
          (fun isBracket => absurd start (by rw [isBracket]; decide))
        obtain ⟨same, behind⟩ :=
          @takeWhile_blanked malformed rest after isWordRest (by decide)
          (by decide) (by decide) later
        rw [word, word, if_pos start, if_pos start, same]
        exact .ok behind
      · cases other with
        | nil => simp at starts
        | cons char' after =>
            have noStart : ¬ isWordStart char' = true := by
              simpa using (Option.some.inj starts).trans
                (Bool.eq_false_iff.mpr start)
            rw [word, word, if_neg start, if_neg noStart]
            exact .mismatch trivial

theorem parallel_word (limit bound : Nat) :
    Parallel (blankedTexts malformed) 1 limit bound word word :=
  .of_advances advances_word advances_word fun _ _ => agrees_word

theorem parallel_identifierHere (limit bound : Nat) :
    Parallel (blankedTexts malformed) 1 limit bound identifierHere
      identifierHere := by
  apply Parallel.of_advances advances_identifierHere advances_identifierHere
  intro text other blanked
  have agrees := agrees_word blanked
  rw [identifierHere, identifierHere]
  generalize word text = reply at agrees
  generalize word other = reply' at agrees
  cases agrees with
  | ok later =>
      dsimp only
      split
      · exact .mismatch trivial
      · exact .ok later
  | mismatch => exact .mismatch trivial
  | fatal => exact .fatal trivial

theorem agrees_digits {negative : Bool} {start start' : List Char}
    (blanked : Blanked malformed .code text other) :
    (digits negative start text).Agrees (blankedTexts malformed)
      (digits negative start' other) := by
  obtain ⟨same, later⟩ :=
    @takeWhile_blanked malformed text other Char.isDigit (by decide)
    (by decide) (by decide) blanked
  rw [digits, digits, same]
  dsimp only
  split
  · exact .mismatch trivial
  · split
    · exact .ok later
    · exact .mismatch trivial

theorem parallel_integerHere (limit bound : Nat) :
    Parallel (blankedTexts malformed) 1 limit bound integerHere
      integerHere := by
  apply Parallel.of_advances advances_integerHere advances_integerHere
  intro text other blanked
  by_cases sign : text.head? = some '~'
  · obtain ⟨rest, rfl⟩ := List.head?_eq_some_iff.mp sign
    obtain ⟨after, rfl, later⟩ := blanked.behind_code (by decide) nofun
    rw [integerHere_sign, integerHere_sign]
    exact agrees_digits later
  · rw [integerHere_unsigned sign, integerHere_unsigned
        (mt (blanked.head_iff (by decide) (by decide)).mp sign)]
    exact agrees_digits blanked

theorem agrees_quotedRest {opening opening' : List Char}
    (blanked : Blanked malformed .quoted text other) :
    (quotedRest opening text).Agrees (blankedTexts malformed)
    (quotedRest opening' other) := by
  revert other
  apply @quotedRest_induction opening fun text reply => ∀ {other : List Char},
    Blanked malformed .quoted text other →
      reply.Agrees (blankedTexts malformed) (quotedRest opening' other)
  · intro other blanked
    cases blanked.blanks
    exact .fatal trivial
  · intro rest other blanked
    obtain ⟨after, rfl, later⟩ := blanked.behind_end
    exact .ok later
  · intro escaped char rest reply known induction other blanked
    obtain ⟨after, rfl, later⟩ := blanked.behind_escape
    rw [quotedRest_escape known]
    exact (induction later).prepend char
  · intro escaped rest unknown other blanked
    obtain ⟨after, rfl, -⟩ := blanked.behind_escape
    rw [quotedRest_unknown unknown]
    exact .fatal trivial
  · intro other blanked
    cases blanked.blanks
    exact .fatal trivial
  · intro char rest reply noQuote noBackslash induction other blanked
    obtain ⟨after, rfl, later⟩ := blanked.behind_quoted noQuote noBackslash
    rw [quotedRest_plain noQuote noBackslash]
    exact (induction later).prepend char

theorem stringHere_of_head (noQuote : text.head? ≠ some '"') :
    stringHere text = .mismatch text := by
  unfold stringHere
  split
  · exact absurd rfl noQuote
  · rfl

theorem parallel_stringHere (limit bound : Nat) :
    Parallel (blankedTexts malformed) 1 limit bound stringHere stringHere := by
  apply Parallel.of_advances advances_stringHere advances_stringHere
  intro text other blanked
  by_cases quote : text.head? = some '"'
  · obtain ⟨rest, rfl⟩ := List.head?_eq_some_iff.mp quote
    obtain ⟨after, rfl, later⟩ := blanked.behind_quote
    have agrees := @agrees_quotedRest _ _ _ ('"' :: rest) ('"' :: after) later
    have content : ∀ chars behind, quotedRest ('"' :: rest) rest =
      .ok chars behind → literalContent rest ≠ none := by
      intro chars behind read
      rw [literalContent, read]
      exact nofun
    rw [stringHere, stringHere]
    generalize quotedRest ('"' :: rest) rest = reply at agrees content
    generalize quotedRest ('"' :: after) after = reply' at agrees
    cases agrees with
    | ok behind =>
        exact .ok
          (behind.weaken fun isMalformed => ⟨isMalformed, content _ _ rfl⟩)
    | mismatch => exact .mismatch trivial
    | fatal => exact .fatal trivial
  · rw [stringHere_of_head quote, stringHere_of_head
        (mt (blanked.head_iff (by decide) (by decide)).mp quote)]
    exact .mismatch trivial

/-- A bracket is read behind blanks only, where it does not begin a comment. -/
theorem parallel_bracket (limit bound : Nat) :
    Parallel (blankedTexts malformed) 1 limit bound (symbol "(")
      (symbol "(") := by
  have advances : Advances 1 (symbol "(") :=
    advances_skip.behind fun _ => advances_exactly (by decide)
  apply Parallel.of_advances advances advances
  intro text other blanked
  obtain ⟨rest, after, read, read', solid, later⟩ :=
    @skipFrom_blanked malformed text other none blanked
  have skipped : symbol "(" text = exactly ['('] rest := bind_of_ok read
  have skipped' : symbol "(" other = exactly ['('] after := bind_of_ok read'
  rw [skipped, skipped']
  cases rest with
  | nil =>
      cases later.blanks
      exact .mismatch trivial
  | cons char rest =>
      by_cases quote : char = '"'
      · subst quote
        obtain ⟨behind, rfl, -⟩ := later.behind_quote
        exact .mismatch trivial
      · obtain ⟨behind, rfl, behindRelated⟩ := later.behind_code quote solid.2
        by_cases bracket : char = '('
        · subst bracket
          exact .ok behindRelated
        · have missing : ∀ text, dropExpected ['('] (char :: text) = none :=
            fun text =>
            dropExpected_eq_none fun starts => bracket (Option.some.inj starts)
          rw [exactly, exactly, missing, missing]
          exact .mismatch trivial

theorem isPlain_of_isWordRest (continuing : isWordRest char = true) :
    isPlain char = true := by
  simp only [isPlain, Bool.and_eq_true, bne_iff_ne]
  refine ⟨⟨?_, ?_⟩, ?_⟩
  all_goals
    rintro rfl
    exact absurd continuing (by decide)

theorem parallelTokens (malformed : Prop) :
    ParallelTokens (blankedTexts malformed) where
  keyword := by
    intro word isWord limit bound
    obtain ⟨char, rest, letters, -, -⟩ := exists_of_isWord isWord
    apply (parallel_skip limit bound).behind
    intro _
    apply (parallel_exactly (letters ▸ List.cons_ne_nil char rest) ?_ limit
      bound).bind
    · intro _
      exact parallel_notBefore (by decide) limit bound
    · rw [List.all_eq_true]
      intro char member
      exact isPlain_of_isWordRest (isWordRest_of_mem isWord member)
  symbol := by
    intro text member limit bound
    rcases List.mem_cons.mp member with isBracket | isOther
    · rw [isBracket]
      exact parallel_bracket limit bound
    · have others : symbols.tail.all (fun text =>
          !text.toList.isEmpty && text.toList.all isPlain) = true := by
        decide
      have plain := List.all_eq_true.mp others text isOther
      rw [Bool.and_eq_true, Bool.not_eq_true',
        List.isEmpty_eq_false_iff] at plain
      apply (parallel_skip limit bound).behind
      intro _
      exact parallel_exactly plain.1 plain.2 limit bound
  equalSign := by
    intro limit bound
    apply (parallel_skip limit bound).behind
    intro _
    apply (parallel_exactly (by decide) (by decide) limit bound).bind
    intro _
    exact parallel_notBefore (by decide) limit bound
  identifier := by
    intro limit bound
    rw [identifier_eq]
    exact (parallel_skip limit bound).behind fun _ =>
      parallel_identifierHere limit bound
  dottedPart limit bound :=
    (parallel_exactly (by decide) (by decide) limit bound).bind fun _ =>
    (parallel_word limit bound).bind fun _ => .pure _
  integer := by
    intro limit bound
    rw [integer_eq]
    exact (parallel_skip limit bound).behind fun _ =>
      parallel_integerHere limit bound
  string := by
    intro limit bound
    rw [string_eq]
    exact (parallel_skip limit bound).behind fun _ =>
      parallel_stringHere limit bound

end Reader

end RecursiveQuery
