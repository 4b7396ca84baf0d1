import RecursiveQuery.Proofs.ProgramReading
import RecursiveQuery.Proofs.ReadTrees

/-!
# Comment marks in written trees

The search for open comments knows nothing of quotes.  In the written form of a
tree marks stand inside string literals only, and none arises where two parts
of the text meet, so that the literals alone decide whether a comment is open
at the end.
-/

namespace RecursiveQuery

variable {text : List Char}

/-- The mark that ends an open comment, or the one that begins a comment. -/
def mark (opened : Bool) : Char × Char :=
  if opened then ('*', ')') else ('(', '*')

theorem mark_fst (opened : Bool) :
    (mark opened).1 = '(' ∨ (mark opened).1 = '*' := by
  cases opened <;> decide

/-- Whether a comment is open behind a text, given whether one is open in front
of it. -/
def leavesOpen : (opened : Bool) → List Char → Bool
  | opened, [] => opened
  | opened, [_] => opened
  | opened, first :: second :: rest =>
      if (first, second) = mark opened then leavesOpen (!opened) rest
      else leavesOpen opened (second :: rest)

theorem leavesOpen_mark (opened : Bool) (rest : List Char) :
    leavesOpen opened ((mark opened).1 :: (mark opened).2 :: rest) =
      leavesOpen (!opened) rest := by
  rw [leavesOpen, if_pos rfl]

/-- A character that begins no mark changes nothing. -/
theorem leavesOpen_cons {opened : Bool} {char : Char} {rest : List Char}
    (noMark : char = (mark opened).1 → rest.head? ≠ some (mark opened).2) :
    leavesOpen opened (char :: rest) = leavesOpen opened rest := by
  cases rest with
  | nil => rfl
  | cons next rest =>
      rw [leavesOpen, if_neg]
      intro isMark
      rw [← isMark] at noMark
      exact noMark rfl rfl

theorem leavesOpen_cons_of_ne {opened : Bool} {char : Char} {rest : List Char}
    (noBracket : char ≠ '(') (noStar : char ≠ '*') :
    leavesOpen opened (char :: rest) = leavesOpen opened rest := by
  refine leavesOpen_cons fun isFirst => ?_
  rcases mark_fst opened with bracket | star
  · exact absurd (isFirst.trans bracket) noBracket
  · exact absurd (isFirst.trans star) noStar

/-- Induction on a text from mark to mark. -/
theorem leavesOpen_induction {motive : Bool → List Char → Prop}
    (nil : ∀ opened, motive opened [])
    (atMark : ∀ opened rest, motive (!opened) rest →
      motive opened ((mark opened).1 :: (mark opened).2 :: rest))
    (other : ∀ opened char rest,
      (char = (mark opened).1 → rest.head? ≠ some (mark opened).2) →
        motive opened rest → motive opened (char :: rest))
    (opened : Bool) (text : List Char) : motive opened text := by
  fun_induction leavesOpen opened text with
  | case1 opened => exact nil opened
  | case2 opened char =>
      exact other opened char [] (fun _ => nofun) (nil opened)
  | case3 opened first second rest isMark induction =>
      have marked := atMark opened rest induction
      rwa [← isMark] at marked
  | case4 opened first second rest noMark induction =>
      refine other opened first (second :: rest) ?_ induction
      rintro rfl head
      cases head
      exact noMark rfl

theorem isSome_unclosedCommentFrom (opened : Option (List Char))
    (text : List Char) : (unclosedCommentFrom opened text).isSome =
    leavesOpen opened.isSome text := by
  fun_induction unclosedCommentFrom opened text with
  | case1 opened => cases opened <;> rfl
  | case2 start rest induction =>
      exact induction.trans (leavesOpen_mark true rest).symm
  | case3 start char rest noMark induction =>
      rw [induction, Option.isSome_some, leavesOpen_cons]
      rintro rfl head
      obtain ⟨tail, rfl⟩ := List.head?_eq_some_iff.mp head
      exact noMark tail rfl rfl
  | case4 rest induction =>
      exact induction.trans (leavesOpen_mark false rest).symm
  | case5 char rest noMark induction =>
      rw [induction, Option.isSome_none, leavesOpen_cons]
      rintro rfl head
      obtain ⟨tail, rfl⟩ := List.head?_eq_some_iff.mp head
      exact noMark tail rfl rfl

theorem unclosedComment?_eq_none_iff :
    unclosedComment? text = none ↔ leavesOpen false text = false := by
  have scanned := isSome_unclosedCommentFrom none text
  rw [Option.isSome_none] at scanned
  rw [← scanned, unclosedComment?, Option.isSome_eq_false_iff,
    Option.isNone_iff_eq_none]

/-- A text can be scanned apart from what follows it, if no mark arises where
the two meet. -/
theorem leavesOpen_append {left right : List Char} (opened : Bool)
    (meets : ∀ opened, left.getLast? = some (mark opened).1 →
      right.head? ≠ some (mark opened).2) :
    leavesOpen opened (left ++ right) =
      leavesOpen (leavesOpen opened left) right := by
  induction opened, left using leavesOpen_induction with
  | nil opened => rfl
  | atMark opened rest induction =>
      rw [List.cons_append, List.cons_append, leavesOpen_mark, leavesOpen_mark]
      apply induction
      intro other last
      refine meets other ?_
      rw [List.getLast?_cons, List.getLast?_cons, last]
      rfl
  | other opened char rest noMark induction =>
      rw [leavesOpen_cons noMark, List.cons_append, leavesOpen_cons]
      · apply induction
        intro other last
        refine meets other ?_
        rw [List.getLast?_cons, last]
        rfl
      · cases rest with
        | nil =>
            rintro rfl
            exact meets opened rfl
        | cons next rest => exact noMark

/-- Whether a comment is open behind some strings, one after the other. -/
def leavesOpenEach (opened : Bool) (strings : List String) : Bool :=
  strings.foldl (fun opened string => leavesOpen opened string.toList) opened

/-- A text whose marks are those of some strings, and at whose edges no mark can
arise. -/
structure Sealed (text : List Char) (strings : List String) : Prop where
  head : text.head? ≠ some '*'
  last : text.getLast? ≠ some '(' ∧ text.getLast? ≠ some '*'
  scan : ∀ opened, leavesOpen opened text = leavesOpenEach opened strings

namespace Sealed

variable {text other : List Char} {strings others : List String}

theorem nil : Sealed [] [] :=
  ⟨nofun, ⟨nofun, nofun⟩, fun _ => rfl⟩

theorem append (first : Sealed text strings) (second : Sealed other others) :
    Sealed (text ++ other) (strings ++ others) where
  head := by
    cases text with
    | nil => exact second.head
    | cons char text => exact first.head
  last := by
    have last := second.last
    rw [List.getLast?_append]
    cases ends : other.getLast? with
    | none => exact first.last
    | some char => rwa [ends] at last
  scan := by
    intro opened
    rw [leavesOpen_append, first.scan, second.scan, leavesOpenEach,
      leavesOpenEach, leavesOpenEach, List.foldl_append]
    intro opened last
    rcases mark_fst opened with bracket | star
    · exact absurd (bracket ▸ last) first.last.1
    · exact absurd (star ▸ last) first.last.2

/-- A text without brackets and stars has no marks. -/
theorem plain (noMark : '(' ∉ text ∧ '*' ∉ text) : Sealed text [] where
  head := fun head => noMark.2 (List.mem_of_head? head)
  last := by
    constructor
    · intro last
      exact noMark.1 (List.mem_of_getLast? last)
    · intro last
      exact noMark.2 (List.mem_of_getLast? last)
  scan := by
    intro opened
    induction text with
    | nil => rfl
    | cons char text induction =>
        rw [List.mem_cons, List.mem_cons, not_or, not_or] at noMark
        obtain ⟨⟨notBracket, noBracket⟩, notStar, noStar⟩ := noMark
        rw [leavesOpen_cons_of_ne (Ne.symm notBracket) (Ne.symm notStar)]
        exact induction ⟨noBracket, noStar⟩

theorem behind (isSealed : Sealed text strings) (front : List Char)
    (noMark : '(' ∉ front ∧ '*' ∉ front) : Sealed (front ++ text) strings :=
  (plain noMark).append isSealed

theorem before (isSealed : Sealed text strings) (back : List Char)
    (noMark : '(' ∉ back ∧ '*' ∉ back) : Sealed (text ++ back) strings := by
  simpa using isSealed.append (plain noMark)

theorem bracket (isSealed : Sealed text strings) :
    Sealed ('(' :: (text ++ [')'])) strings := by
  have closed := isSealed.before [')'] (by decide)
  refine ⟨nofun, ?_, ?_⟩
  · rw [← List.cons_append, List.getLast?_concat]
    exact ⟨by decide, by decide⟩
  · intro opened
    rw [leavesOpen_cons, closed.scan opened]
    cases opened with
    | true => exact nofun
    | false => exact fun _ => closed.head

theorem intercalate_cons {gap : List Char} {texts : List (List Char)}
    (between : Sealed gap []) (first : Sealed text strings)
    (rest : Sealed (List.intercalate gap texts) others) :
    Sealed (List.intercalate gap (text :: texts)) (strings ++ others) := by
  cases texts with
  | nil => simpa using first.append rest
  | cons next texts =>
      rw [List.intercalate_cons_cons]
      simpa using (first.append between).append rest

end Sealed

namespace Literal

variable {char : Char}

/-- The characters that are escaped. -/
def isSpecial (char : Char) : Prop :=
  char = '"' ∨ char = '\\' ∨ char = '\n'

theorem escape_cons_of_special (special : isSpecial char) (text : List Char) :
    ∃ letter, escape (char :: text) = '\\' :: letter :: escape text ∧
      letter ≠ '(' ∧ letter ≠ '*' := by
  rcases special with rfl | rfl | rfl
  · exact ⟨'"', rfl, by decide, by decide⟩
  · exact ⟨'\\', rfl, by decide, by decide⟩
  · exact ⟨'n', rfl, by decide, by decide⟩

theorem escape_cons_of_not_special (other : ¬ isSpecial char)
    (text : List Char) :
    escape (char :: text) = char :: escape text := by
  rw [escape]
  · rintro rfl
    exact other (.inl rfl)
  · rintro rfl
    exact other (.inr (.inl rfl))
  · rintro rfl
    exact other (.inr (.inr rfl))

/-- An escaped text begins with a backslash or as the text does. -/
theorem head_escape (notBackslash : char ≠ '\\')
    (head : (escape text).head? = some char) : text.head? = some char := by
  cases text with
  | nil => exact head
  | cons first text =>
      by_cases special : isSpecial first
      · obtain ⟨letter, escaped, _⟩ := escape_cons_of_special special text
        rw [escaped] at head
        exact absurd (Option.some.inj head).symm notBackslash
      · rwa [escape_cons_of_not_special special] at head

/-- Escapes are no marks, and marks stay together. -/
theorem leavesOpen_escape (opened : Bool) (text : List Char) :
    leavesOpen opened (escape text) = leavesOpen opened text := by
  induction opened, text using leavesOpen_induction with
  | nil opened => rfl
  | atMark opened rest induction =>
      have escaped : escape ((mark opened).1 :: (mark opened).2 :: rest) =
          (mark opened).1 :: (mark opened).2 :: escape rest := by
        cases opened <;> rfl
      rw [escaped, leavesOpen_mark, leavesOpen_mark, induction]
  | other opened char rest noMark induction =>
      rw [leavesOpen_cons noMark, ← induction]
      by_cases special : isSpecial char
      · obtain ⟨letter, escaped, noBracket, noStar⟩ :=
          escape_cons_of_special special rest
        rw [escaped, leavesOpen_cons_of_ne (by decide) (by decide),
          leavesOpen_cons_of_ne noBracket noStar]
      · rw [escape_cons_of_not_special special, leavesOpen_cons]
        intro isFirst head
        refine noMark isFirst (head_escape ?_ head)
        cases opened <;> decide

end Literal

namespace Sealed

theorem word {text : List Char} (word : isWord text = true) :
    Sealed text [] := by
  refine plain ⟨?_, ?_⟩
  · intro member
    exact absurd (isWordRest_of_mem word member) (by decide)
  · intro member
    exact absurd (isWordRest_of_mem word member) (by decide)

theorem identifier {name : Name} (identifier : name.isIdentifier = true) :
    Sealed name.toList [] :=
  word (Reader.isWord_of_isIdentifier identifier)

theorem qualified {name : Name} (qualified : name.isQualified = true) :
    Sealed name.toList [] := by
  obtain ⟨first, parts, isIdentifier, words, spelled⟩ :=
    Reader.exists_of_isQualified qualified
  have dotted : Sealed (parts.flatMap ('.' :: ·)) [] := by
    clear spelled
    induction parts with
    | nil => exact nil
    | cons part parts induction =>
        have here :=
          (word (words part List.mem_cons_self)).behind ['.'] (by decide)
        exact here.append (induction fun part member =>
          words part (List.mem_cons_of_mem _ member))
  rw [spelled]
  exact (identifier isIdentifier).append dotted

theorem integer (value : Int64) : Sealed (Literal.integerChars value) [] := by
  have digits : Sealed (Nat.toDigits 10 value.toInt.natAbs) [] := by
    have isDigit {char : Char}
      (member : char ∈ Nat.toDigits 10 value.toInt.natAbs) :
        char.isDigit = true :=
      Nat.isDigit_of_mem_toDigits (by decide) (by decide) member
    refine plain ⟨?_, ?_⟩
    · intro member
      exact absurd (isDigit member) (by decide)
    · intro member
      exact absurd (isDigit member) (by decide)
  rw [Literal.integerChars]
  split
  · exact digits.behind ['~'] (by decide)
  · exact digits

theorem string (value : String) : Sealed (Literal.str value).chars [value] where
  head := nofun
  last := by
    rw [Literal.chars, ← List.cons_append, List.getLast?_concat]
    exact ⟨by decide, by decide⟩
  scan := by
    intro opened
    rw [Literal.chars, leavesOpen_cons_of_ne (by decide) (by decide),
      leavesOpen_append, Literal.leavesOpen_escape]
    · rfl
    · intro opened _
      cases opened <;> decide

end Sealed

/-- The string literals of a literal: itself or none. -/
def Literal.strings : Literal → List String
  | str value => [value]
  | _ => []

theorem Literal.isSealed (literal : Literal) :
    Sealed literal.chars literal.strings := by
  cases literal with
  | unit => exact Sealed.nil.bracket
  | bool value => cases value <;> exact .plain (by decide)
  | int value => exact .integer value
  | str value => exact .string value

namespace Pattern

mutual

/-- The string literals of a pattern in written order. -/
def strings : Pattern → List String
  | wildcard => []
  | var _ => []
  | literal value => value.strings
  | tuple items => stringsList items

def stringsList : List Pattern → List String
  | [] => []
  | item :: items => strings item ++ stringsList items

end

mutual

theorem isSealed (pattern : Pattern)
    (wellFormed : pattern.isWellFormed = true) :
    Sealed pattern.chars pattern.strings := by
  cases pattern with
  | wildcard => exact .plain (by decide)
  | var name => exact .identifier wellFormed
  | literal value => exact value.isSealed
  | tuple items =>
      simp only [isWellFormed, Bool.and_eq_true] at wellFormed
      exact (areSealed items wellFormed.2).bracket

theorem areSealed (items : List Pattern)
    (wellFormed : areWellFormed items = true) :
    Sealed (List.intercalate ", ".toList (charsList items))
      (stringsList items) := by
  cases items with
  | nil => exact .nil
  | cons item items =>
      simp only [areWellFormed, Bool.and_eq_true] at wellFormed
      exact .intercalate_cons (.plain (by decide)) (isSealed item wellFormed.1)
        (areSealed items wellFormed.2)

end

end Pattern

namespace Ty

theorem sealed_bracket {type : Ty} (isSealed : Sealed text []) :
    Sealed (bracket type text) [] := by
  rw [bracket]
  split
  · exact isSealed.bracket
  · exact isSealed

mutual

/-- The star between the components of a tuple stands between blanks. -/
theorem isSealed (type : Ty) : Sealed type.chars [] := by
  cases type with
  | unit | bool | int | string => exact .plain (by decide)
  | tuple items => exact areSealed items
  | list element | bag element =>
      exact (sealed_bracket (isSealed element)).before _ (by decide)

theorem areSealed (items : List Ty) :
    Sealed (List.intercalate " * ".toList (charsList items)) [] := by
  cases items with
  | nil => exact .nil
  | cons item items =>
      have star : Sealed " * ".toList [] := by
        refine ⟨by decide, by decide, ?_⟩
        intro opened
        cases opened <;> decide
      exact .intercalate_cons star (sealed_bracket (isSealed item))
        (areSealed items)

end

end Ty

namespace Expr

mutual

/-- The string literals of an expression in written order. -/
def strings : Expr → List String
  | literal value => value.strings
  | var _ => []
  | tuple items => stringsList items
  | list items => stringsList items
  | apply function argument => strings function ++ strings argument
  | lambda param body => param.strings ++ strings body
  | andAlso left right => strings left ++ strings right
  | orElse left right => strings left ++ strings right
  | binary _ left right => strings left ++ strings right
  | collect query => stringsQuery query
  | existence query => stringsQuery query

def stringsList : List Expr → List String
  | [] => []
  | item :: items => strings item ++ stringsList items

def stringsQuery : Query → List String
  | ⟨scans, steps⟩ => stringsScans scans ++ stringsSteps steps

def stringsScans : List Scan → List String
  | [] => []
  | ⟨pattern, none⟩ :: scans => pattern.strings ++ stringsScans scans
  | ⟨pattern, some source⟩ :: scans =>
      pattern.strings ++ strings source ++ stringsScans scans

def stringsSteps : List Step → List String
  | [] => []
  | .filter condition :: steps => strings condition ++ stringsSteps steps
  | .yield value :: steps => strings value ++ stringsSteps steps

end

end Expr

namespace Expr

theorem sealed_bracketBelow (least : Nat) (expr : Expr) {strings : List String}
    (isSealed : Sealed text strings) :
    Sealed (bracketBelow least expr text) strings := by
  rw [bracketBelow]
  split
  · exact isSealed.bracket
  · exact isSealed

mutual

theorem isSealed (expr : Expr) (wellFormed : expr.isWellFormed = true) :
    Sealed expr.chars expr.strings := by
  cases expr with
  | literal value => exact value.isSealed
  | var name => exact .qualified wellFormed
  | tuple items =>
      simp only [isWellFormed, Bool.and_eq_true] at wellFormed
      exact (areSealed items wellFormed.2).bracket
  | list items =>
      exact ((areSealed items wellFormed).before [']'] (by decide)).behind ['[']
        (by decide)
  | apply function argument =>
      simp only [isWellFormed, Bool.and_eq_true] at wellFormed
      have first := isSealed function wellFormed.1
      have second := isSealed argument wellFormed.2
      exact (sealed_bracketBelow _ _ first).append
        ((sealed_bracketBelow _ _ second).behind [' '] (by decide))
  | lambda param body =>
      simp only [isWellFormed, Bool.and_eq_true] at wellFormed
      have first :=
        (param.isSealed wellFormed.1).behind "fn ".toList (by decide)
      exact (first.before " => ".toList (by decide)).append
        (isSealed body wellFormed.2)
  | andAlso left right =>
      simp only [isWellFormed, Bool.and_eq_true] at wellFormed
      have first := isSealed left wellFormed.1
      have second := isSealed right wellFormed.2
      exact ((sealed_bracketBelow _ _ first).before " andalso ".toList
        (by decide)).append (sealed_bracketBelow _ _ second)
  | orElse left right =>
      simp only [isWellFormed, Bool.and_eq_true] at wellFormed
      have first := isSealed left wellFormed.1
      have second := isSealed right wellFormed.2
      exact ((sealed_bracketBelow _ _ first).before " orelse ".toList
        (by decide)).append (sealed_bracketBelow _ _ second)
  | binary op left right =>
      simp only [isWellFormed, Bool.and_eq_true] at wellFormed
      have first := isSealed left wellFormed.1
      have second := isSealed right wellFormed.2
      have operand := (sealed_bracketBelow op.rightLevel right second).behind
        [' '] (by decide)
      have behindSymbol :=
        operand.behind op.symbol.toList (by cases op <;> decide)
      exact (sealed_bracketBelow _ _ first).append
        (behindSymbol.behind [' '] (by decide))
  | collect query =>
      exact (isSealedQuery query wellFormed).behind "from ".toList (by decide)
  | existence query =>
      exact (isSealedQuery query wellFormed).behind "exists ".toList (by decide)

theorem areSealed (items : List Expr)
    (wellFormed : areWellFormed items = true) :
    Sealed (List.intercalate ", ".toList (charsList items))
      (stringsList items) := by
  cases items with
  | nil => exact .nil
  | cons item items =>
      simp only [areWellFormed, Bool.and_eq_true] at wellFormed
      exact .intercalate_cons (.plain (by decide))
        (sealed_bracketBelow _ _ (isSealed item wellFormed.1))
        (areSealed items wellFormed.2)

theorem isSealedQuery (query : Query)
    (wellFormed : isWellFormedQuery query = true) :
    Sealed (charsQuery query) (stringsQuery query) := by
  obtain ⟨scans, steps⟩ := query
  simp only [isWellFormedQuery, Bool.and_eq_true] at wellFormed
  exact (areSealedScans scans wellFormed.1.2).append
    (areSealedSteps steps wellFormed.2)

theorem areSealedScans (scans : List Scan)
    (wellFormed : areWellFormedScans scans = true) :
    Sealed (List.intercalate ", ".toList (charsScans scans))
      (stringsScans scans) := by
  match scans with
  | [] => exact .nil
  | ⟨pattern, none⟩ :: scans =>
      simp only [areWellFormedScans, Bool.and_eq_true] at wellFormed
      exact .intercalate_cons (.plain (by decide))
        (pattern.isSealed wellFormed.1) (areSealedScans scans wellFormed.2)
  | ⟨pattern, some source⟩ :: scans =>
      simp only [areWellFormedScans, Bool.and_eq_true] at wellFormed
      have bound :=
        (pattern.isSealed wellFormed.1.1).before " in ".toList (by decide)
      have sourced :=
        sealed_bracketBelow 1 source (isSealed source wellFormed.1.2)
      exact .intercalate_cons (.plain (by decide)) (bound.append sourced)
        (areSealedScans scans wellFormed.2)

theorem areSealedSteps (steps : List Step)
    (wellFormed : areWellFormedSteps steps = true) :
    Sealed (charsSteps steps) (stringsSteps steps) := by
  match steps with
  | [] => exact .nil
  | .filter condition :: steps =>
      simp only [areWellFormedSteps, Bool.and_eq_true] at wellFormed
      have here :=
        sealed_bracketBelow 1 condition (isSealed condition wellFormed.1)
      exact (here.behind " where ".toList (by decide)).append
        (areSealedSteps steps wellFormed.2)
  | .yield value :: steps =>
      simp only [areWellFormedSteps, Bool.and_eq_true] at wellFormed
      have here := sealed_bracketBelow 1 value (isSealed value wellFormed.1)
      exact (here.behind " yield ".toList (by decide)).append
        (areSealedSteps steps wellFormed.2)

end

end Expr

/-- The string literals of a declaration in written order. -/
def Decl.strings : Decl → List String
  | val _ _ none => []
  | val _ _ (some value) => value.strings
  | function _ param body => param.strings ++ body.strings

theorem Decl.isSealed {decl : Decl} (wellFormed : decl.isWellFormed = true) :
    Sealed decl.chars decl.strings := by
  match decl with
  | val name type value =>
      simp only [Decl.isWellFormed, Bool.and_eq_true] at wellFormed
      obtain ⟨⟨named, _⟩, valued⟩ := wellFormed
      have typed : Sealed (Reader.typeChars type) [] := by
        cases type with
        | none => exact .nil
        | some type => exact type.isSealed.behind " : ".toList (by decide)
      have declared :=
        (Sealed.identifier named).behind "val ".toList (by decide)
      rw [Reader.chars_val]
      cases value with
      | none => exact (declared.append typed).append .nil
      | some value =>
          exact (declared.append typed).append
            ((value.isSealed valued).behind " = ".toList (by decide))
  | function name param body =>
      simp only [Decl.isWellFormed, Bool.and_eq_true] at wellFormed
      obtain ⟨⟨named, paramWellFormed⟩, bodyWellFormed⟩ := wellFormed
      have declared :=
        (Sealed.identifier named).behind "fun ".toList (by decide)
      have bound :=
        (param.isSealed paramWellFormed).before " = ".toList (by decide)
      exact declared.append
        ((bound.append (body.isSealed bodyWellFormed)).behind [' '] (by decide))

def Program.strings (program : Program) : List String :=
  program.decls.flatMap Decl.strings

theorem Program.isSealed {program : Program}
    (wellFormed : program.isWellFormed = true) :
    Sealed program.chars program.strings := by
  obtain ⟨decls⟩ := program
  simp only [Program.isWellFormed] at wellFormed
  rw [Program.chars, Program.strings]
  induction decls with
  | nil => exact .nil
  | cons decl decls induction =>
      simp only [List.all_cons, Bool.and_eq_true] at wellFormed
      rw [List.flatMap_cons, List.flatMap_cons]
      have here := (Decl.isSealed wellFormed.1).before [';', '\n'] (by decide)
      exact here.append (induction wellFormed.2)

end RecursiveQuery
