import RecursiveQuery.Reader.Grammar

/-!
# Runs of readers

How the combinators reply where their parts succeed or mismatch.  A repetition
succeeds with the items that `ReadsEach` lists, and operands that nest to the
left are collected by `ReadsChain`.
-/

namespace RecursiveQuery

namespace Reader

variable {α β : Type}
variable {text rest : List Char}

/-- The reader leaves the text to another alternative. -/
def Mismatches (reader : Reader α) (text : List Char) : Prop :=
  ∃ position, reader text = .mismatch position

theorem bind_of_ok {first : Reader α} {next : α → Reader β} {value : α}
    (read : first text = .ok value rest) :
    (first >>= next) text = next value rest := by
  change Reader.bind first next text = _
  rw [Reader.bind, read]

theorem Mismatches.bind {first : Reader α} {text : List Char}
    (mismatch : Mismatches first text) (next : α → Reader β) :
    Mismatches (first >>= next) text := by
  obtain ⟨position, mismatched⟩ := mismatch
  refine ⟨position, ?_⟩
  change Reader.bind first next text = _
  rw [Reader.bind, mismatched]

theorem mismatches_bind_of_ok {first : Reader α} {next : α → Reader β}
    {value : α} (read : first text = .ok value rest)
    (mismatch : Mismatches (next value) rest) :
    Mismatches (first >>= next) text := by
  obtain ⟨position, mismatched⟩ := mismatch
  exact ⟨position, (bind_of_ok read).trans mismatched⟩

theorem or_of_ok {first second : Reader α} {value : α}
    (read : first text = .ok value rest) :
    or first second text = .ok value rest := by
  rw [or, read]

theorem or_of_mismatches {first second : Reader α}
    (mismatch : Mismatches first text) :
    or first second text = second text := by
  obtain ⟨position, mismatched⟩ := mismatch
  rw [or, mismatched]

theorem choice_of_ok {first : Reader α} {others : List (Reader α)} {value : α}
    (read : first text = .ok value rest) :
    choice (first :: others) text = .ok value rest := by
  cases others with
  | nil => exact read
  | cons second others => exact or_of_ok read

theorem choice_of_mismatches {first second : Reader α}
    {others : List (Reader α)} (mismatch : Mismatches first text) :
    choice (first :: second :: others) text = choice (second :: others) text :=
  or_of_mismatches mismatch

theorem optional_of_ok {item : Reader α} {value : α}
    (read : item text = .ok value rest) :
    optional item text = .ok (some value) rest := by
  rw [optional, read]

theorem optional_of_mismatches {item : Reader α}
    (mismatch : Mismatches item text) : optional item text = .ok none text := by
  obtain ⟨position, mismatched⟩ := mismatch
  rw [optional, mismatched]

/-- Items that are read one after another, each of which consumes something. -/
inductive ReadsEach (item : Reader α) :
    List Char → List α → List Char → Prop where
  | nil (text : List Char) : ReadsEach item text [] text
  | cons {text middle rest : List Char} {value : α} {values : List α} :
      item text = .ok value middle → middle.length < text.length →
      ReadsEach item middle values rest →
        ReadsEach item text (value :: values) rest

theorem ReadsEach.snoc {item : Reader α} {middle : List Char} {value : α}
    {values : List α} (reads : ReadsEach item text values middle)
    (read : item middle = .ok value rest)
    (shorter : rest.length < middle.length) :
    ReadsEach item text (values ++ [value]) rest := by
  induction reads with
  | nil => exact .cons read shorter (.nil _)
  | cons first progress _ induction =>
      exact .cons first progress (induction read shorter)

theorem manyUpTo_of_readsEach {item : Reader α} {values : List α}
    (reads : ReadsEach item text values rest) (stops : Mismatches item rest) :
    ∀ limit, text.length ≤ limit →
      manyUpTo item limit text = .ok values rest := by
  induction reads with
  | nil text =>
      intro limit _
      obtain ⟨position, mismatched⟩ := stops
      cases limit with
      | zero => rfl
      | succ limit => simp only [manyUpTo, mismatched]
  | cons read shorter _ induction =>
      intro limit enough
      cases limit with
      | zero => omega
      | succ limit =>
          simp only [manyUpTo, read, induction stops limit (by omega)]

theorem many_of_readsEach {item : Reader α} {values : List α}
    (reads : ReadsEach item text values rest) (stops : Mismatches item rest) :
    many item text = .ok values rest :=
  manyUpTo_of_readsEach reads stops _ (Nat.le_refl _)

theorem length_lt_append {gap : List Char} (nonempty : 0 < gap.length)
    (text rest : List Char) : rest.length < (gap ++ (text ++ rest)).length := by
  rw [List.length_append, List.length_append]
  omega

/-- A first operand and items that are combined with it from the left. -/
def ReadsChain (operand : Reader α) (item : Reader β) (combine : α → β → α)
    (text : List Char) (value : α) (rest : List Char) : Prop :=
  ∃ first middle items, operand text = .ok first middle ∧
    ReadsEach item middle items rest ∧ items.foldl combine first = value

namespace ReadsChain

variable {operand : Reader α} {item : Reader β} {combine : α → β → α}
  {text middle rest : List Char} {value : α} {next : β}

theorem single (read : operand text = .ok value rest) :
    ReadsChain operand item combine text value rest :=
  ⟨value, rest, [], read, .nil rest, rfl⟩

theorem snoc (reads : ReadsChain operand item combine text value middle)
    (read : item middle = .ok next rest)
    (shorter : rest.length < middle.length) :
    ReadsChain operand item combine text (combine value next) rest := by
  obtain ⟨first, start, items, readFirst, readItems, folded⟩ := reads
  refine ⟨first, start, items ++ [next], readFirst,
    readItems.snoc read shorter, ?_⟩
  rw [List.foldl_append, folded]
  rfl

theorem read (reads : ReadsChain operand item combine text value rest)
    (stops : Mismatches item rest) :
    (do
      let first ← operand
      let items ← many item
      return items.foldl combine first : Reader α) text = .ok value rest := by
  obtain ⟨first, middle, items, readFirst, readItems, rfl⟩ := reads
  rw [bind_of_ok readFirst, bind_of_ok (many_of_readsEach readItems stops)]
  rfl

end ReadsChain

/-- The reader does not care for a blank in front of its text. -/
def SkipsBlank (reader : Reader α) : Prop :=
  ∀ text, reader (' ' :: text) = reader text

namespace SkipsBlank

theorem bind {first : Reader α} (skips : SkipsBlank first)
    (next : α → Reader β) : SkipsBlank (first >>= next) := by
  intro text
  change Reader.bind first next _ = Reader.bind first next _
  rw [Reader.bind, Reader.bind, skips]

theorem or {first second : Reader α} (skipsFirst : SkipsBlank first)
    (skipsSecond : SkipsBlank second) :
    SkipsBlank (Reader.or first second) := by
  intro text
  rw [Reader.or, Reader.or, skipsFirst, skipsSecond]

theorem choice {first : Reader α} {others : List (Reader α)}
    (skips : ∀ reader ∈ first :: others, SkipsBlank reader) :
    SkipsBlank (Reader.choice (first :: others)) := by
  induction others generalizing first with
  | nil => exact skips first List.mem_cons_self
  | cons second others induction =>
      apply or (skips first List.mem_cons_self)
      exact induction fun reader member =>
        skips reader (List.mem_cons_of_mem _ member)

end SkipsBlank

/-- The reader reads a text, with or without a blank in front of it, and stops
at the rest. -/
structure Reads (reader : Reader α) (text : List Char) (value : α)
    (rest : List Char) : Prop where
  plain : reader (text ++ rest) = .ok value rest
  blank : reader (' ' :: (text ++ rest)) = .ok value rest

theorem SkipsBlank.reads {reader : Reader α} {value : α}
    (skips : SkipsBlank reader)
    (read : reader (text ++ rest) = .ok value rest) :
    Reads reader text value rest :=
  ⟨read, (skips _).trans read⟩

section Separated

variable {opening closing : String} {after : List Char}

theorem intercalate_map (gap : List Char) (text : α → List Char) (value : α)
    (values : List α) : List.intercalate gap ((value :: values).map text) =
      text value ++ values.flatMap fun other => gap ++ text other := by
  induction values generalizing value with
  | nil => simp
  | cons next values induction =>
      rw [List.map_cons, List.map_cons, List.intercalate_cons_cons,
        ← List.map_cons, induction]
      simp

theorem length_le_intercalate (gap : List Char) {text : List Char}
    {texts : List (List Char)} (member : text ∈ texts) :
    text.length ≤ (List.intercalate gap texts).length := by
  induction texts with
  | nil => simp at member
  | cons first texts induction =>
      cases texts with
      | nil => simp_all
      | cons second texts =>
          rw [List.intercalate_cons_cons, List.length_append,
            List.length_append]
          rcases List.mem_cons.mp member with rfl | later
          · omega
          · have := induction later
            omega

variable {separator : Reader Unit} {item : Reader α} {gap : List Char}
  {text : α → List Char}
  (follows : List Char → Prop) {values : List α} {rest : List Char}

theorem readsEach_gaps
    (parted : ∀ rest, separator (gap ++ rest) = .ok () (' ' :: rest))
    (gapNonempty : 0 < gap.length) (gapFollows : ∀ rest, follows (gap ++ rest))
    (reads : ∀ value ∈ values, ∀ rest, follows rest →
      Reads item (text value) value rest) (ended : follows rest) :
    follows (values.flatMap (fun value => gap ++ text value) ++ rest) ∧
      ReadsEach (do separator; item)
        (values.flatMap (fun value => gap ++ text value) ++ rest) values
          rest := by
  induction values with
  | nil => exact ⟨ended, .nil rest⟩
  | cons value values induction =>
      obtain ⟨nextFollows, later⟩ :=
        induction fun other member =>
          reads other (List.mem_cons_of_mem _ member)
      have read := (reads value List.mem_cons_self _ nextFollows).blank
      simp only [List.flatMap_cons, List.append_assoc] at read ⊢
      refine ⟨gapFollows _, .cons ((bind_of_ok (parted _)).trans read) ?_ later⟩
      simp only [List.length_append]
      omega

/-- Items with a gap between every two of them are read back, where an item may
be followed by a gap or by the rest. -/
theorem separated_intercalate
    (parted : ∀ rest, separator (gap ++ rest) = .ok () (' ' :: rest))
    (gapNonempty : 0 < gap.length) (gapFollows : ∀ rest, follows (gap ++ rest))
    (reads : ∀ value ∈ values, ∀ rest, follows rest →
      Reads item (text value) value rest)
    (ended : follows rest) (stops : Mismatches separator rest)
    (nonempty : values ≠ []) :
    Reads (separated separator item) (List.intercalate gap (values.map text))
      values rest := by
  cases values with
  | nil => exact absurd rfl nonempty
  | cons value values =>
      obtain ⟨nextFollows, later⟩ :=
        readsEach_gaps follows parted gapNonempty gapFollows
        (fun other member => reads other (List.mem_cons_of_mem _ member)) ended
      have first := reads value List.mem_cons_self _ nextFollows
      have others := many_of_readsEach later (stops.bind fun _ => item)
      rw [intercalate_map]
      constructor
      · rw [separated, List.append_assoc, bind_of_ok first.plain,
          bind_of_ok others]
        rfl
      · rw [separated, List.append_assoc, bind_of_ok first.blank,
          bind_of_ok others]
        rfl

theorem enclosed_intercalate {whole : List Char}
    (opened : symbol opening whole =
      .ok () (List.intercalate ", ".toList (values.map text) ++ after))
    (closed : symbol closing after = .ok () rest)
    (gapFollows : ∀ rest, follows (", ".toList ++ rest)) (ended : follows after)
    (stops : Mismatches (symbol ",") after)
    (reads : ∀ value ∈ values, ∀ rest, follows rest →
      Reads item (text value) value rest)
    (nonempty : values ≠ []) :
    enclosed opening closing item whole = .ok values rest := by
  have read : Reads (separated (symbol ",") item) _ values after :=
    separated_intercalate follows (fun _ => rfl) (by decide) gapFollows reads
      ended stops nonempty
  apply (bind_of_ok opened).trans
  apply (bind_of_ok (or_of_ok read.plain)).trans
  exact (bind_of_ok closed).trans rfl

omit follows in
theorem enclosed_single {whole inner : List Char} {value : α}
    (opened : symbol opening whole = .ok () inner)
    (read : item inner = .ok value after)
    (stops : Mismatches (symbol ",") after)
    (closed : symbol closing after = .ok () rest) :
    enclosed opening closing item whole = .ok [value] rest := by
  have alone : separated (symbol ",") item inner = .ok [value] after := by
    apply (bind_of_ok read).trans
    exact (bind_of_ok (many_of_readsEach (.nil after) (stops.bind _))).trans rfl
  apply (bind_of_ok opened).trans
  apply (bind_of_ok (or_of_ok alone)).trans
  exact (bind_of_ok closed).trans rfl

end Separated

end Reader

end RecursiveQuery
