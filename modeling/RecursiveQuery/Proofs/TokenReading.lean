import RecursiveQuery.Proofs.Reading
import RecursiveQuery.Proofs.WellFormed

/-!
# Reading tokens

Every written token is read back as long as the text behind it does not run on
with it.  The first character of a token decides which readers mismatch on it.
-/

namespace RecursiveQuery

variable {char : Char} {text rest : List Char}

theorem toNat_of_isWordStart (start : isWordStart char = true) :
    65 ≤ char.toNat ∧ char.toNat ≤ 122 := by
  change ((decide (char.val ≥ 65 ∧ char.val ≤ 90) ||
    decide (char.val ≥ 97) && decide (char.val ≤ 122)) || char == '_') =
      true at start
  simp only [Bool.or_eq_true, Bool.and_eq_true, decide_eq_true_eq, beq_iff_eq,
    ge_iff_le, UInt32.le_iff_toNat_le] at start
  change ((65 ≤ char.toNat ∧ char.toNat ≤ 90) ∨
    (97 ≤ char.toNat ∧ char.toNat ≤ 122)) ∨ char = '_' at start
  rcases start with letter | rfl
  · omega
  · decide

theorem isWordRest_of_isWordStart (start : isWordStart char = true) :
    isWordRest char = true := by
  simp only [isWordStart, Bool.or_eq_true] at start
  simp only [isWordRest, Char.isAlphanum, Bool.or_eq_true]
  rcases start with alpha | underscore
  · exact .inl (.inl (.inl alpha))
  · exact .inl (.inr underscore)

theorem isBlank_eq_false (low : 33 ≤ char.toNat) (high : char.toNat < 133) :
    isBlank char = false := by
  simp only [isBlank, Bool.or_eq_false_iff, Bool.and_eq_false_iff,
    decide_eq_false_iff_not, beq_eq_false_iff_ne]
  omega

theorem exists_of_isWord (word : isWord text = true) :
    ∃ char rest, text = char :: rest ∧ isWordStart char = true ∧
      ∀ other ∈ rest, isWordRest other = true := by
  cases text with
  | nil => simp [isWord] at word
  | cons char rest => exact ⟨char, rest, rfl, by simpa [isWord] using word⟩

theorem isWordRest_of_mem (word : isWord text = true) (member : char ∈ text) :
    isWordRest char = true := by
  obtain ⟨first, rest, rfl, start, continuing⟩ := exists_of_isWord word
  rcases List.mem_cons.mp member with rfl | inRest
  · exact isWordRest_of_isWordStart start
  · exact continuing char inRest

/-- No word or number runs on into the text. -/
def endsWord : List Char → Bool
  | [] => true
  | char :: _ => !isWordRest char

/-- No word, number or dotted name runs on into the text. -/
def endsToken (rest : List Char) : Bool :=
  endsWord rest && rest.head? != some '.'

theorem takeWhile_of_ends {keep : Char → Bool}
    (kept : ∀ char ∈ text, keep char = true)
    (ends : ∀ char, rest.head? = some char → keep char = false) :
    (text ++ rest).takeWhile keep = text ∧
    (text ++ rest).dropWhile keep = rest := by
  rw [List.takeWhile_append_of_pos kept, List.dropWhile_append_of_pos kept]
  cases rest with
  | nil => simp
  | cons char rest => simp [ends char rfl]

theorem head_of_endsWord (ends : endsWord rest = true)
    (head : rest.head? = some char) : isWordRest char = false := by
  cases rest with
  | nil => simp at head
  | cons first rest =>
      obtain rfl : first = char := by simpa using head
      simpa [endsWord] using ends

theorem endsWord_of_endsToken (ends : endsToken rest = true) :
    endsWord rest = true := by
  simp only [endsToken, Bool.and_eq_true] at ends
  exact ends.1

namespace Reader

variable {char want : Char} {rest text : List Char} {name : Name}

theorem skip_of_head (solid : isBlank char = false)
    (plain : char ≠ '(' ∨ rest.head? ≠ some '*') :
    skip (char :: rest) = .ok () (char :: rest) := by
  unfold skip
  unfold skipFrom
  split <;> simp_all

/-- Nothing is skipped in front of the text, nor in front of a bracket around
it. -/
def Solid (text : List Char) : Prop :=
  ∀ rest, skip (text ++ rest) = .ok () (text ++ rest) ∧
    skip ('(' :: (text ++ rest)) = .ok () ('(' :: (text ++ rest))

namespace Solid

variable {text : List Char}

theorem of_head (solid : isBlank char = false) (noBracket : char ≠ '(')
    (noStar : char ≠ '*') : Solid (char :: rest) := by
  intro more
  refine ⟨skip_of_head solid (.inl noBracket), ?_⟩
  apply skip_of_head (by decide)
  right
  simpa using noStar

theorem append (solid : Solid text) (more : List Char) :
    Solid (text ++ more) := by
  intro rest
  rw [List.append_assoc]
  exact solid (more ++ rest)

theorem bracket (solid : Solid text) : Solid ('(' :: text) := by
  intro rest
  refine ⟨(solid rest).2, ?_⟩
  apply skip_of_head (by decide)
  simp

theorem word {text : List Char} (word : isWord text = true) : Solid text := by
  obtain ⟨char, rest, rfl, start, _⟩ := exists_of_isWord word
  obtain ⟨low, high⟩ := toNat_of_isWordStart start
  apply of_head (isBlank_eq_false (by omega) (by omega))
  · rintro rfl
    exact absurd start (by decide)
  · rintro rfl
    exact absurd start (by decide)

end Solid

theorem dropExpected_eq_some_iff {expected : List Char} :
    dropExpected expected text = some rest ↔ text = expected ++ rest := by
  induction expected generalizing text with
  | nil => simp [dropExpected]
  | cons want expected induction =>
      cases text with
      | nil => simp [dropExpected]
      | cons char text =>
          by_cases same : want = char
          · simp [dropExpected, same, induction]
          · simp [dropExpected, same, eq_comm]

theorem exactly_of_append {expected rest : List Char} :
    exactly expected (expected ++ rest) = .ok () rest := by
  rw [exactly, dropExpected_eq_some_iff.mpr rfl]

theorem mismatches_exactly {expected : List Char}
    (head : expected.head? = some want) (differs : want ≠ char) :
    Mismatches (exactly expected) (char :: rest) := by
  cases expected with
  | nil => simp at head
  | cons first expected =>
      obtain rfl : first = want := by simpa using head
      exact ⟨char :: rest, by simp [exactly, dropExpected, differs]⟩

theorem symbol_of_skip {text : String}
    (skipped : skip (text.toList ++ rest) = .ok () (text.toList ++ rest)) :
    symbol text (text.toList ++ rest) = .ok () rest :=
  (bind_of_ok skipped).trans exactly_of_append

theorem mismatches_symbol {text : String}
    (skipped : skip (char :: rest) = .ok () (char :: rest))
    (head : text.toList.head? = some want) (differs : want ≠ char) :
    Mismatches (symbol text) (char :: rest) :=
  mismatches_bind_of_ok skipped (mismatches_exactly head differs)

theorem mismatches_keyword {word : String}
    (skipped : skip (char :: rest) = .ok () (char :: rest))
    (head : word.toList.head? = some want) (differs : want ≠ char) :
    Mismatches (keyword word) (char :: rest) :=
  mismatches_bind_of_ok skipped ((mismatches_exactly head differs).bind _)

/-- A keyword is not read from a longer or another word. -/
theorem mismatches_keyword_of_word {word : String}
    (isKeyword : word.toList.all isWordRest = true)
    (isWord : isWord text = true) (ends : endsWord rest = true)
    (differs : text ≠ word.toList) :
    Mismatches (keyword word) (text ++ rest) := by
  apply mismatches_bind_of_ok (Solid.word isWord rest).1
  cases dropped : dropExpected word.toList (text ++ rest) with
  | none =>
      apply Mismatches.bind
      exact ⟨text ++ rest, by rw [exactly, dropped]⟩
  | some after =>
      have matched := dropExpected_eq_some_iff.mp dropped
      have read : exactly word.toList (text ++ rest) = .ok () after := by
        rw [matched]
        exact exactly_of_append
      apply mismatches_bind_of_ok read
      rcases List.append_eq_append_iff.mp matched with
        ⟨common, whole, split⟩ | ⟨common, whole, split⟩
      · -- The keyword would run on behind the word.
        cases common with
        | nil => simp [whole] at differs
        | cons char common =>
            have inKeyword : isWordRest char = true := by
              apply List.all_eq_true.mp isKeyword
              simp [whole]
            have head : rest.head? = some char := by simp [split]
            simp [head_of_endsWord ends head] at inKeyword
      · -- The word would run on behind the keyword.
        cases common with
        | nil => simp [whole] at differs
        | cons char common =>
            have inWord : isWordRest char = true :=
              isWordRest_of_mem isWord (by simp [whole])
            refine ⟨char :: (common ++ rest), ?_⟩
            simp [split, notBefore, inWord]

theorem keyword_of_word {word : String} {rest : List Char}
    (isWord : isWord word.toList = true) (ends : endsWord rest = true) :
    keyword word (word.toList ++ rest) = .ok () rest := by
  rw [keyword, bind_of_ok (Solid.word isWord rest).1,
    bind_of_ok exactly_of_append]
  cases rest with
  | nil => rfl
  | cons char rest =>
      have noWord : isWordRest char = false := head_of_endsWord ends rfl
      simp [notBefore, noWord]

/-! ## Identifiers -/

theorem word_of_isWord (isWord : isWord text = true)
    (ends : endsWord rest = true) :
    word (text ++ rest) = .ok text rest := by
  obtain ⟨char, others, rfl, start, continuing⟩ := exists_of_isWord isWord
  obtain ⟨taken, left⟩ :=
    takeWhile_of_ends continuing fun _ => head_of_endsWord ends
  simp [word, start, taken, left]

theorem identifier_of_isIdentifier {name : Name} {rest : List Char}
    (identifier : Name.isIdentifier name = true) (ends : endsWord rest = true) :
    Reader.identifier (name.toList ++ rest) = .ok name rest := by
  simp only [Name.isIdentifier, Bool.and_eq_true,
    Bool.not_eq_true'] at identifier
  obtain ⟨isWord, noKeyword⟩ := identifier
  apply (bind_of_ok (Solid.word isWord rest).1).trans
  simp only [word_of_isWord isWord ends, String.ofList_toList, noKeyword,
    Bool.false_eq_true, if_false]

theorem isWord_of_isIdentifier (identifier : Name.isIdentifier name = true) :
    isWord name.toList = true := by
  simp only [Name.isIdentifier, Bool.and_eq_true] at identifier
  exact identifier.1

/-- No identifier is read as a keyword. -/
theorem mismatches_keyword_identifier {word : String} {name : Name}
    {rest : List Char} (isKeyword : word ∈ keywords)
    (identifier : Name.isIdentifier name = true) (ends : endsWord rest = true) :
    Mismatches (keyword word) (name.toList ++ rest) := by
  have areWords : ∀ word ∈ keywords, word.toList.all isWordRest =
    true := by decide
  simp only [Name.isIdentifier, Bool.and_eq_true, Bool.not_eq_true',
    List.contains_eq_mem, decide_eq_false_iff_not] at identifier
  apply mismatches_keyword_of_word (areWords word isKeyword) identifier.1 ends
  intro same
  rw [String.toList_inj.mp same] at identifier
  exact identifier.2 isKeyword

theorem mismatches_symbol_identifier {text : String}
    (head : text.toList.head? = some want) (noStart : isWordStart want = false)
    (identifier : Name.isIdentifier name = true) :
    Mismatches (symbol text) (name.toList ++ rest) := by
  have isWord := isWord_of_isIdentifier identifier
  have skipped := (Solid.word isWord rest).1
  obtain ⟨char, others, spelled, start, _⟩ := exists_of_isWord isWord
  rw [spelled] at skipped ⊢
  apply mismatches_symbol skipped head
  rintro rfl
  simp [start] at noStart

theorem endsWord_dottedParts {parts : List (List Char)} {rest : List Char}
    (ends : endsWord rest = true) :
    endsWord (parts.flatMap ('.' :: ·) ++ rest) = true := by
  cases parts with
  | nil => exact ends
  | cons next parts => rfl

theorem readsEach_dottedPart {parts : List (List Char)}
    (words : ∀ part ∈ parts, isWord part = true) (ends : endsWord rest = true) :
    ReadsEach dottedPart (parts.flatMap ('.' :: ·) ++ rest)
      (parts.map ('.' :: ·)) rest := by
  induction parts with
  | nil => exact .nil rest
  | cons part parts induction =>
      have later := induction fun other member =>
        words other (List.mem_cons_of_mem _ member)
      have read := word_of_isWord (words part List.mem_cons_self)
        (@endsWord_dottedParts parts rest ends)
      simp only [List.flatMap_cons, List.map_cons, List.append_assoc,
        List.cons_append]
      refine .cons ?_ (@length_lt_append ['.'] (by decide) part _) later
      apply (bind_of_ok (@exactly_of_append ['.'] _)).trans
      exact (bind_of_ok read).trans rfl

theorem exists_of_isQualified (qualified : Name.isQualified name = true) :
    ∃ first : Name, ∃ parts : List (List Char), first.isIdentifier = true ∧
      (∀ part ∈ parts, isWord part = true) ∧
      name.toList = first.toList ++ parts.flatMap ('.' :: ·) := by
  have joined : ['.'].intercalate (name.toList.splitOn '.') = name.toList :=
    List.intercalate_splitOn '.'
  rw [Name.isQualified] at qualified
  cases split : name.toList.splitOn '.' with
  | nil => simp [split] at qualified
  | cons first parts =>
      simp only [split, Bool.and_eq_true, List.all_eq_true] at qualified
      refine ⟨String.ofList first, parts, qualified.1, qualified.2, ?_⟩
      rw [← joined, split, String.toList_ofList]
      simpa using intercalate_map ['.'] id first parts

theorem qualifiedIdentifier_of_isQualified
    (qualified : Name.isQualified name = true) (ends : endsToken rest = true) :
    qualifiedIdentifier (name.toList ++ rest) = .ok name rest := by
  have endsWord := endsWord_of_endsToken ends
  obtain ⟨first, parts, identifier, words, spelled⟩ :=
    exists_of_isQualified qualified
  have noDot : Mismatches dottedPart rest := by
    apply Mismatches.bind
    cases rest with
    | nil => exact ⟨[], rfl⟩
    | cons char rest =>
        apply mismatches_exactly rfl
        rintro rfl
        simp [endsToken] at ends
  have read := identifier_of_isIdentifier identifier
    (@endsWord_dottedParts parts rest endsWord)
  have later := many_of_readsEach (readsEach_dottedPart words endsWord) noDot
  rw [spelled, List.append_assoc]
  apply (bind_of_ok read).trans
  apply (bind_of_ok later).trans
  rw [← List.flatMap_def, ← spelled, String.ofList_toList]
  rfl

/-! ## Literals -/

theorem isDigit_eq_false (noRest : isWordRest char = false) :
    char.isDigit = false := by
  simp only [isWordRest, Char.isAlphanum, Bool.or_eq_false_iff] at noRest
  exact noRest.1.1.2

theorem toNat_of_isDigit (digit : char.isDigit = true) :
    48 ≤ char.toNat ∧ char.toNat ≤ 57 := by
  simp only [Char.isDigit, Bool.and_eq_true, decide_eq_true_eq, ge_iff_le,
    UInt32.le_iff_toNat_le] at digit
  exact digit

theorem exists_toDigits (number : Nat) :
    ∃ first others, Nat.toDigits 10 number = first :: others ∧
      first.isDigit = true := by
  cases digits : Nat.toDigits 10 number with
  | nil => exact absurd digits Nat.toDigits_ne_nil
  | cons first others =>
      refine ⟨first, others, rfl, ?_⟩
      apply Nat.isDigit_of_mem_toDigits (b := 10) (n := number) (by decide)
        (by decide)
      simp [digits]

theorem head_integerChars (value : Int64) :
    ∃ char rest, Literal.integerChars value = char :: rest ∧
      (char = '~' ∨ char.isDigit = true) := by
  obtain ⟨first, others, digits, isDigit⟩ := exists_toDigits value.toInt.natAbs
  by_cases negative : value.toInt < 0
  · exact ⟨'~', first ::
      others, by simp [Literal.integerChars, negative, digits], .inl rfl⟩
  · exact ⟨first,
      others, by simp [Literal.integerChars, negative, digits], .inr isDigit⟩

section Integers

variable {digits rest : List Char}
  (areDigits : ∀ char ∈ digits, char.isDigit = true)
  (nonempty : digits ≠ []) (bounded : decimal digits < 0x8000000000000000)
    (ends : endsWord rest = true)

include areDigits ends

theorem takeWhile_isDigit :
    (digits ++ rest).takeWhile Char.isDigit = digits ∧
      (digits ++ rest).dropWhile Char.isDigit = rest :=
  takeWhile_of_ends areDigits fun _ head =>
    isDigit_eq_false (head_of_endsWord ends head)

include nonempty bounded

theorem integer_of_negative :
    integer ('~' :: (digits ++ rest)) =
      .ok (Int64.ofInt (-(decimal digits : Int))) rest := by
  obtain ⟨taken, left⟩ := takeWhile_isDigit areDigits ends
  apply (bind_of_ok (skip_of_head (by decide) (.inl (by decide)))).trans
  simp only [taken, left]
  rw [if_neg (by simpa using nonempty), if_pos bounded]
  rfl

theorem integer_of_nonnegative :
    integer (digits ++ rest) = .ok (Int64.ofInt (decimal digits)) rest := by
  obtain ⟨taken, left⟩ := takeWhile_isDigit areDigits ends
  cases digits with
  | nil => exact absurd rfl nonempty
  | cons first others =>
      have isDigit := areDigits first List.mem_cons_self
      obtain ⟨low, high⟩ := toNat_of_isDigit isDigit
      have noSign : first ≠ '~' := by
        rintro rfl
        exact absurd isDigit (by decide)
      have noBracket : first ≠ '(' := by
        rintro rfl
        exact absurd isDigit (by decide)
      rw [List.cons_append] at taken left ⊢
      apply (bind_of_ok (skip_of_head (isBlank_eq_false (by omega) (by omega))
        (.inl noBracket))).trans
      split
      next negative unsigned signed =>
        obtain ⟨rfl, rfl⟩ : false = negative ∧
          first :: (others ++ rest) = unsigned := by
          simpa [noSign] using signed
        simp only [taken, left]
        rw [if_neg (by simp), if_pos bounded]
        rfl

end Integers

theorem integer_of_integerChars {value : Int64}
    (inRange : Int64.minValue < value) (ends : endsWord rest = true) :
    integer (Literal.integerChars value ++ rest) = .ok value rest := by
  have areDigits : ∀ char ∈ Nat.toDigits 10 value.toInt.natAbs, char.isDigit =
    true :=
    fun _ member => Nat.isDigit_of_mem_toDigits (by decide) (by decide) member
  have denoted : decimal (Nat.toDigits 10 value.toInt.natAbs) =
    value.toInt.natAbs :=
    Nat.ofDigitChars_ten_toDigits
  have bounded : decimal (Nat.toDigits 10 value.toInt.natAbs) <
    0x8000000000000000 := by
    have low := Int64.lt_iff_toInt_lt.mp inRange
    have high := value.toInt_lt
    rw [Int64.toInt_minValue] at low
    omega
  by_cases negative : value.toInt < 0
  · simp only [Literal.integerChars, if_pos negative, List.cons_append]
    rw [integer_of_negative areDigits Nat.toDigits_ne_nil bounded ends, denoted,
      show -(value.toInt.natAbs : Int) = value.toInt by
        omega, Int64.ofInt_toInt]
  · simp only [Literal.integerChars, if_neg negative]
    rw [integer_of_nonnegative areDigits Nat.toDigits_ne_nil bounded ends,
      denoted, show (value.toInt.natAbs : Int) = value.toInt by omega,
      Int64.ofInt_toInt]

theorem quotedRest_of_escape (opening text rest : List Char) :
    quotedRest opening (Literal.escape text ++ '"' :: rest) =
      .ok text rest := by
  induction text with
  | nil => rfl
  | cons char text induction =>
      unfold Literal.escape
      split
      · simp_all
      · simp_all [quotedRest]
      · simp_all [quotedRest]
      · simp_all [quotedRest]
      · simp_all [quotedRest]

theorem mismatches_integer
    (skipped : skip (char :: rest) = .ok () (char :: rest))
    (noSign : char ≠ '~') (noDigit : char.isDigit = false) :
    Mismatches integer (char :: rest) := by
  apply mismatches_bind_of_ok skipped
  exact ⟨char :: rest, by simp [noSign, noDigit]⟩

theorem mismatches_string
    (skipped : skip (char :: rest) = .ok () (char :: rest))
    (noQuote : char ≠ '"') :
    Mismatches string (char :: rest) := by
  apply mismatches_bind_of_ok skipped
  exact ⟨char :: rest, by simp [noQuote]⟩

theorem mismatches_literal_bracket
    (skipped : skip ('(' :: text) = .ok () ('(' :: text)) :
    Mismatches literal ('(' :: text) := by
  have noInteger := mismatches_integer skipped (by decide) (by decide)
  have noString := mismatches_string skipped (by decide)
  have noTrue : Mismatches (keyword "true") ('(' :: text) :=
    mismatches_keyword skipped rfl (by decide)
  have noFalse : Mismatches (keyword "false") ('(' :: text) :=
    mismatches_keyword skipped rfl (by decide)
  rw [Mismatches, literal, choice_of_mismatches (noInteger.bind _),
    choice_of_mismatches (noString.bind _),
    choice_of_mismatches (noTrue.bind _)]
  exact noFalse.bind _

theorem mismatches_literal_identifier
    (identifier : Name.isIdentifier name = true) (ends : endsWord rest = true) :
    Mismatches literal (name.toList ++ rest) := by
  have noTrue :=
    @mismatches_keyword_identifier "true" name rest (by decide) identifier ends
  have noFalse :=
    @mismatches_keyword_identifier "false" name rest (by decide) identifier ends
  have isWord := isWord_of_isIdentifier identifier
  have skipped := (Solid.word isWord rest).1
  obtain ⟨char, others, spelled, start, _⟩ := exists_of_isWord isWord
  rw [spelled] at noTrue noFalse skipped ⊢
  have noInteger : Mismatches integer (char :: others ++ rest) := by
    apply mismatches_integer skipped
    · rintro rfl
      exact absurd start (by decide)
    · cases digit : char.isDigit with
      | false => rfl
      | true =>
          have := toNat_of_isWordStart start
          have := toNat_of_isDigit digit
          omega
  have noString : Mismatches string (char :: others ++ rest) := by
    apply mismatches_string skipped
    rintro rfl
    exact absurd start (by decide)
  rw [Mismatches, literal, choice_of_mismatches (noInteger.bind _),
    choice_of_mismatches (noString.bind _),
    choice_of_mismatches (noTrue.bind _)]
  exact noFalse.bind _

theorem Solid.literal (value : Literal) : Solid value.chars := by
  cases value with
  | unit => intro rest; exact ⟨rfl, rfl⟩
  | bool value =>
      apply Solid.word
      cases value <;> decide
  | int value =>
      obtain ⟨char, rest, spelled, head⟩ := head_integerChars value
      rw [Literal.chars, spelled]
      rcases head with rfl | isDigit
      · exact Solid.of_head (by decide) (by decide) (by decide)
      · obtain ⟨low, high⟩ := toNat_of_isDigit isDigit
        apply Solid.of_head (isBlank_eq_false (by omega) (by omega))
        · rintro rfl
          exact absurd isDigit (by decide)
        · rintro rfl
          exact absurd isDigit (by decide)
  | str value => exact Solid.of_head (by decide) (by decide) (by decide)

theorem string_of_escape (value : String) (rest : List Char) :
    Reader.string (Literal.chars (.str value) ++ rest) = .ok value rest := by
  have read :=
    quotedRest_of_escape ('"' :: (Literal.escape value.toList ++ '"' :: rest))
    value.toList rest
  simp only [Literal.chars, List.cons_append, List.append_assoc,
    List.nil_append]
  apply (bind_of_ok (skip_of_head (by decide) (.inl (by decide)))).trans
  simp only [read, String.ofList_toList]

theorem literal_of_isWellFormed {value : Literal}
    (wellFormed : value.isWellFormed = true) (noUnit : value ≠ .unit)
    (ends : endsWord rest = true) :
    Reader.literal (value.chars ++ rest) = .ok value rest := by
  cases value with
  | unit => exact absurd rfl noUnit
  | int value =>
      have inRange : Int64.minValue < value := by
        simpa [Literal.isWellFormed] using wellFormed
      apply choice_of_ok
      exact (bind_of_ok (integer_of_integerChars inRange ends)).trans rfl
  | str value =>
      apply (choice_of_mismatches ⟨_, rfl⟩).trans
      apply choice_of_ok
      exact (bind_of_ok (string_of_escape value rest)).trans rfl
  | bool value =>
      cases value with
      | true =>
          have read := @keyword_of_word "true" rest (by decide) ends
          apply (choice_of_mismatches ⟨_, rfl⟩).trans
          apply (choice_of_mismatches ⟨_, rfl⟩).trans
          apply choice_of_ok
          exact (bind_of_ok read).trans rfl
      | false =>
          have read := @keyword_of_word "false" rest (by decide) ends
          apply (choice_of_mismatches ⟨_, rfl⟩).trans
          apply (choice_of_mismatches ⟨_, rfl⟩).trans
          apply (choice_of_mismatches ⟨_, rfl⟩).trans
          exact (bind_of_ok read).trans rfl

/-- No literal but a truth value begins with a word. -/
theorem mismatches_keyword_literal {word : String} {value : Literal}
    (isKeyword : isWord word.toList = true)
    (noTrue : "true".toList ≠ word.toList)
    (noFalse : "false".toList ≠ word.toList) (ends : endsWord rest = true) :
    Mismatches (keyword word) (value.chars ++ rest) := by
  have skipped := (Solid.literal value rest).1
  obtain ⟨want, others, spelledWord, start, _⟩ := exists_of_isWord isKeyword
  have head : word.toList.head? = some want := by simp [spelledWord]
  have continuing : word.toList.all isWordRest = true :=
    List.all_eq_true.mpr fun _ member => isWordRest_of_mem isKeyword member
  have differs {char : Char} (noStart : isWordStart char = false) : want ≠
    char := by
    rintro rfl
    simp [start] at noStart
  cases value with
  | unit => exact mismatches_keyword skipped head (differs (by decide))
  | str value => exact mismatches_keyword skipped head (differs (by decide))
  | bool value =>
      cases value with
      | true =>
          exact mismatches_keyword_of_word continuing (by decide) ends noTrue
      | false =>
          exact mismatches_keyword_of_word continuing (by decide) ends noFalse
  | int value =>
      obtain ⟨char, rest, spelled, first⟩ := head_integerChars value
      simp only [Literal.chars, spelled] at skipped ⊢
      apply mismatches_keyword skipped head
      rcases first with rfl | isDigit
      · exact differs (by decide)
      · rintro rfl
        have := toNat_of_isWordStart start
        have := toNat_of_isDigit isDigit
        omega

/-! ## Blanks in front of tokens -/

theorem SkipsBlank.symbol (text : String) : SkipsBlank (Reader.symbol text) :=
  SkipsBlank.bind (fun _ => rfl) _

theorem SkipsBlank.keyword (word : String) : SkipsBlank (Reader.keyword word) :=
  SkipsBlank.bind (fun _ => rfl) _

theorem SkipsBlank.identifier : SkipsBlank Reader.identifier :=
  fun _ => rfl

theorem SkipsBlank.qualifiedIdentifier :
    SkipsBlank Reader.qualifiedIdentifier :=
  SkipsBlank.bind SkipsBlank.identifier _

theorem SkipsBlank.literal : SkipsBlank Reader.literal :=
  fun _ => rfl

end Reader

end RecursiveQuery
