import RecursiveQuery.Proofs.TokenReading

/-!
# Progress of token readers

What a reader leaves of its text is a suffix of it, and so is the place where it
fails.  A token consumes at least one character, so that no repetition of tokens
runs longer than its text.
-/

namespace RecursiveQuery

/-- What a reply leaves of a text: a rest that is shorter by a gap, or the place
of a failure.  What is fatal is never the end of the text. -/
def Reply.Leaves {α : Type} (gap : Nat) (text : List Char) : Reply α → Prop
  | .ok _ rest => rest <:+ text ∧ rest.length + gap ≤ text.length
  | .mismatch position => position <:+ text
  | .fatal position => position <:+ text ∧ position ≠ []

/-- A value in front of those that were read. -/
def Reply.prepend {α : Type} (value : α) : Reply (List α) → Reply (List α)
  | ok values rest => ok (value :: values) rest
  | mismatch position => mismatch position
  | fatal position => fatal position

namespace Reply.Leaves

variable {α : Type} {reply : Reply α} {gap less more : Nat}
  {text rest : List Char}

theorem weaken (fewer : less ≤ gap) (leaves : reply.Leaves gap text) :
    reply.Leaves less text := by
  cases reply with
  | ok value rest => exact ⟨leaves.1, by have := leaves.2; omega⟩
  | mismatch position => exact leaves
  | fatal position => exact leaves

/-- A reply on what another reader left. -/
theorem behind (leaves : reply.Leaves more rest) (isSuffix : rest <:+ text)
    (shorter : rest.length + gap ≤ text.length) :
    reply.Leaves (gap + more) text := by
  cases reply with
  | ok value last => exact ⟨leaves.1.trans isSuffix, by have := leaves.2; omega⟩
  | mismatch position => exact List.IsSuffix.trans leaves isSuffix
  | fatal position => exact ⟨leaves.1.trans isSuffix, leaves.2⟩

theorem within (leaves : reply.Leaves gap rest) (isSuffix : rest <:+ text) :
    reply.Leaves gap text := by
  have shorter : rest.length + 0 ≤ text.length := isSuffix.length_le
  exact (leaves.behind isSuffix shorter).weaken (Nat.le_add_left _ _)

theorem prepend {reply : Reply (List α)} (leaves : reply.Leaves gap text)
    (value : α) : (reply.prepend value).Leaves gap text := by
  cases reply with
  | ok values rest => exact leaves
  | mismatch position => exact leaves
  | fatal position => exact leaves

/-- At the end of a text nothing that consumes a character does anything but
mismatch. -/
theorem eq_mismatch (leaves : reply.Leaves 1 []) : reply = .mismatch [] := by
  cases reply with
  | ok value rest => exact absurd leaves.2 (by simp)
  | mismatch position => rw [List.suffix_nil.mp leaves]
  | fatal position => exact absurd (List.suffix_nil.mp leaves.1) leaves.2

end Reply.Leaves

namespace Reader

variable {α β : Type}
variable {text opening rest : List Char} {escaped char : Char}

/-- The reader consumes at least `gap` characters wherever it succeeds. -/
def Advances (gap : Nat) (reader : Reader α) : Prop :=
  ∀ text, (reader text).Leaves gap text

/-- Behind blanks. -/
theorem Advances.behind {gap : Nat} {first : Reader α} {next : α → Reader β}
    (advances : first.Advances 0) (later : ∀ value, (next value).Advances gap) :
    (first >>= next).Advances gap := by
  intro text
  have leaves := advances text
  change (Reader.bind first next text).Leaves gap text
  rw [Reader.bind]
  generalize first text = reply at leaves
  cases reply with
  | ok value rest =>
      exact ((later value rest).behind leaves.1 leaves.2).weaken
        (Nat.le_add_left _ _)
  | mismatch position => exact leaves
  | fatal position => exact leaves

theorem advances_skipFrom {opened : Option (List Char)} {whole : List Char}
    (isSuffix : text <:+ whole)
    (started : ∀ start ∈ opened, start <:+ whole ∧ start ≠ []) :
    (skipFrom opened text).Leaves 0 whole := by
  fun_induction skipFrom opened text with
  | case1 => exact ⟨isSuffix, isSuffix.length_le⟩
  | case2 start => exact started start rfl
  | case3 start rest induction =>
      exact induction (((List.suffix_cons _ _).trans
        (List.suffix_cons _ _)).trans isSuffix) nofun
  | case4 start char rest noMark induction =>
      exact induction ((List.suffix_cons _ _).trans isSuffix) started
  | case5 rest induction =>
      apply induction
        (((List.suffix_cons _ _).trans (List.suffix_cons _ _)).trans isSuffix)
      intro start isStart
      cases isStart
      exact ⟨isSuffix, nofun⟩
  | case6 char rest noMark isBlank induction =>
      exact induction ((List.suffix_cons _ _).trans isSuffix) nofun
  | case7 => exact ⟨isSuffix, isSuffix.length_le⟩

theorem advances_skip : Advances 0 skip :=
  fun text => advances_skipFrom (List.suffix_refl text) nofun

theorem advances_exactly {expected : List Char} (nonempty : expected ≠ []) :
    Advances 1 (exactly expected) := by
  intro text
  rw [exactly]
  split
  · next rest found =>
      rw [dropExpected_eq_some_iff.mp found]
      have := List.length_pos_iff.mpr nonempty
      refine ⟨List.suffix_append _ _, ?_⟩
      rw [List.length_append]
      omega
  · exact List.suffix_refl text

theorem advances_notBefore (excluded : Char → Bool) :
    Advances 0 (notBefore excluded) := by
  intro text
  cases text with
  | nil => exact ⟨List.suffix_refl _, Nat.le_refl _⟩
  | cons char rest =>
      rw [notBefore]
      split
      · exact List.suffix_refl _
      · exact ⟨List.suffix_refl _, Nat.le_refl _⟩

theorem leaves_dropWhile {value : α} (keep : Char → Bool) (char : Char)
    (rest : List Char) :
    (Reply.ok value (rest.dropWhile keep)).Leaves 1 (char :: rest) :=
  ⟨(List.dropWhile_suffix keep).trans (List.suffix_cons _ _),
    Nat.succ_le_succ (List.dropWhile_suffix keep).length_le⟩

theorem advances_word : Advances 1 word := by
  intro text
  cases text with
  | nil => exact List.suffix_refl _
  | cons char rest =>
      rw [word]
      split
      · exact leaves_dropWhile isWordRest char rest
      · exact List.suffix_refl _

/-- An identifier without blanks in front of it. -/
def identifierHere : Reader Name := fun text =>
  match word text with
  | .ok letters rest =>
      let name := String.ofList letters
      if keywords.contains name then .mismatch text else .ok name rest
  | .mismatch position => .mismatch position
  | .fatal position => .fatal position

theorem identifier_eq : identifier = (do skip; identifierHere) :=
  rfl

theorem advances_identifierHere : Advances 1 identifierHere := by
  intro text
  have leaves := advances_word text
  rw [identifierHere]
  generalize word text = reply at leaves
  cases reply with
  | ok letters rest =>
      dsimp only
      split
      · exact List.suffix_refl text
      · exact leaves
  | mismatch position => exact leaves
  | fatal position => exact leaves

/-- The digits of an integer behind its sign, where `start` is the text at the
sign. -/
def digits (negative : Bool) (start : List Char) : Reader Int64 := fun text =>
  let digits := text.takeWhile Char.isDigit
  if digits.isEmpty then .mismatch text
  else
    let magnitude := decimal digits
    if magnitude < 0x8000000000000000 then
      let value := if negative then -(magnitude : Int) else magnitude
      .ok (Int64.ofInt value) (text.dropWhile Char.isDigit)
    else .mismatch start

/-- An integer without blanks in front of it. -/
def integerHere : Reader Int64 := fun text =>
  let (negative, unsigned) :=
    match text with
    | '~' :: rest => (true, rest)
    | rest => (false, rest)
  digits negative text unsigned

theorem integer_eq : integer = (do skip; integerHere) :=
  rfl

theorem integerHere_sign (rest : List Char) :
    integerHere ('~' :: rest) = digits true ('~' :: rest) rest :=
  rfl

theorem integerHere_unsigned (noSign : text.head? ≠ some '~') :
    integerHere text = digits false text text := by
  unfold integerHere
  split
  next negative unsigned found =>
    split at found
    · exact absurd rfl noSign
    · cases found
      rfl

theorem leaves_digits {negative : Bool} {start : List Char}
    (isSuffix : text <:+ start) :
    (digits negative start text).Leaves 1 start := by
  rw [digits]
  dsimp only
  split
  · exact isSuffix
  · next some =>
      split
      · cases text with
        | nil => exact absurd rfl some
        | cons char rest =>
            have isDigit : char.isDigit = true := by
              cases digit : char.isDigit with
              | true => rfl
              | false => simp [digit] at some
            rw [List.dropWhile_cons_of_pos isDigit]
            exact (leaves_dropWhile Char.isDigit char rest).within isSuffix
      · exact List.suffix_refl start

theorem advances_integerHere : Advances 1 integerHere := by
  intro text
  by_cases sign : text.head? = some '~'
  · obtain ⟨rest, rfl⟩ := List.head?_eq_some_iff.mp sign
    exact leaves_digits (List.suffix_cons _ _)
  · rw [integerHere_unsigned sign]
    exact leaves_digits (List.suffix_refl _)

/-! ## Quoted characters -/

/-- What a character behind a backslash stands for. -/
def escapes : List (Char × Char) :=
  [('n', '\n'), ('t', '\t'), ('"', '"'), ('\\', '\\')]

theorem quotedRest_escape (known : (escaped, char) ∈ escapes) :
    quotedRest opening ('\\' :: escaped :: rest) =
      (quotedRest opening rest).prepend char := by
  simp only [escapes, List.mem_cons, List.not_mem_nil, or_false,
    Prod.mk.injEq] at known
  rcases known with ⟨rfl, rfl⟩ | ⟨rfl, rfl⟩ | ⟨rfl, rfl⟩ | ⟨rfl, rfl⟩
  all_goals
    rw [quotedRest]
    cases quotedRest opening rest <;> rfl

theorem quotedRest_unknown (unknown : escaped ∉ escapes.map Prod.fst) :
    quotedRest opening ('\\' :: escaped :: rest) =
      .fatal ('\\' :: escaped :: rest) := by
  rw [quotedRest]
  all_goals
    rintro rfl
    exact unknown (by decide)

theorem quotedRest_plain (noQuote : char ≠ '"') (noBackslash : char ≠ '\\') :
    quotedRest opening (char :: rest) =
      (quotedRest opening rest).prepend char := by
  rw [quotedRest]
  · cases quotedRest opening rest <;> rfl
  · exact noQuote
  · exact fun _ _ isBackslash => absurd isBackslash noBackslash
  · exact fun isBackslash => absurd isBackslash noBackslash

/-- Induction on what stands behind an opening quote. -/
theorem quotedRest_induction {opening : List Char}
    {motive : List Char → Reply (List Char) → Prop}
    (ended : motive [] (.fatal opening))
    (closes : ∀ rest, motive ('"' :: rest) (.ok [] rest))
    (escape : ∀ escaped char rest reply, (escaped, char) ∈ escapes →
      motive rest reply → motive ('\\' :: escaped :: rest) (reply.prepend char))
    (unknown : ∀ escaped rest, escaped ∉ escapes.map Prod.fst →
      motive ('\\' :: escaped :: rest) (.fatal ('\\' :: escaped :: rest)))
    (backslash : motive ['\\'] (.fatal ['\\']))
    (plain : ∀ char rest reply, char ≠ '"' → char ≠ '\\' → motive rest reply →
      motive (char :: rest) (reply.prepend char))
    (text : List Char) : motive text (quotedRest opening text) := by
  match text with
  | [] => exact ended
  | char :: rest =>
      have later :=
        quotedRest_induction ended closes escape unknown backslash plain rest
      by_cases quote : char = '"'
      · rw [quote]
        exact closes rest
      · by_cases isBackslash : char = '\\'
        · rw [isBackslash]
          cases rest with
          | nil => exact backslash
          | cons escaped rest =>
              have behind := quotedRest_induction ended closes escape unknown
                backslash plain rest
              by_cases known : escaped ∈ escapes.map Prod.fst
              · obtain ⟨⟨_, char⟩, member, rfl⟩ := List.mem_map.mp known
                rw [quotedRest_escape member]
                exact escape _ char rest _ member behind
              · rw [quotedRest_unknown known]
                exact unknown escaped rest known
        · rw [quotedRest_plain quote isBackslash]
          exact plain char rest _ quote isBackslash later
termination_by text.length

/-- What stands behind an opening quote, where `whole` is the text at the
quote. -/
theorem leaves_quotedRest {opening text whole : List Char}
    (opens : opening <:+ whole) (nonempty : opening ≠ [])
    (isSuffix : text <:+ whole) (shorter : text.length + 1 ≤ whole.length) :
    (quotedRest opening text).Leaves 1 whole := by
  revert isSuffix shorter
  apply @quotedRest_induction opening fun text reply => text <:+ whole →
    text.length + 1 ≤ whole.length → reply.Leaves 1 whole
  · intro _ _
    exact ⟨opens, nonempty⟩
  · intro rest isSuffix shorter
    refine ⟨(List.suffix_cons _ _).trans isSuffix, ?_⟩
    rw [List.length_cons] at shorter
    omega
  · intro escaped char rest reply _ induction isSuffix shorter
    simp only [List.length_cons] at shorter
    exact (induction
      (((List.suffix_cons _ _).trans (List.suffix_cons _ _)).trans isSuffix)
      (by omega)).prepend char
  · intro escaped rest _ isSuffix _
    exact ⟨isSuffix, nofun⟩
  · intro isSuffix _
    exact ⟨isSuffix, nofun⟩
  · intro char rest reply _ _ induction isSuffix shorter
    rw [List.length_cons] at shorter
    exact (induction ((List.suffix_cons _ _).trans isSuffix) (by omega)).prepend
      char

/-- A string literal without blanks in front of it. -/
def stringHere : Reader String := fun text =>
  match text with
  | '"' :: rest =>
      match quotedRest text rest with
      | .ok chars rest => .ok (String.ofList chars) rest
      | .mismatch position => .mismatch position
      | .fatal position => .fatal position
  | other => .mismatch other

theorem string_eq : string = (do skip; stringHere) :=
  rfl

theorem advances_stringHere : Advances 1 stringHere := by
  intro text
  unfold stringHere
  split
  · next rest =>
      have leaves := @leaves_quotedRest ('"' :: rest) rest ('"' :: rest)
        (List.suffix_refl _) nofun (List.suffix_cons _ _) (Nat.le_refl _)
      generalize quotedRest ('"' :: rest) rest = reply at leaves
      cases reply with
      | ok chars rest => exact leaves
      | mismatch position => exact leaves
      | fatal position => exact leaves
  · exact List.suffix_refl text

end Reader

end RecursiveQuery
