import RecursiveQuery.CommandLine.Arguments
import RecursiveQuery.CommandLine.Report
import RecursiveQuery.Reader.Source

/-!
# Values of options

An extent is a pair of 64-bit integers with two dots between them, and a
binding is a name and an expression with an equality sign between them.
-/

namespace RecursiveQuery

namespace CommandLine

/-- A text without the blanks at its ends. -/
def trim (text : List Char) : List Char :=
  ((text.dropWhile isBlank).reverse.dropWhile isBlank).reverse

/-- Why a text is not a 64-bit integer. -/
inductive IntegerError where
  | empty
  | invalidDigit
  | tooLarge
  | tooSmall
deriving DecidableEq

def IntegerError.message : IntegerError → String
  | empty => "cannot parse integer from empty string"
  | invalidDigit => "invalid digit found in string"
  | tooLarge => "number too large to fit in target type"
  | tooSmall => "number too small to fit in target type"

/-- Extend a number by digits.  The first digit that is none, or that takes the
number beyond the limit, decides the error. -/
def readDigits (limit : Nat) (beyond : IntegerError) :
    List Char → Nat → Except IntegerError Nat
  | [], value => return value
  | char :: rest, value =>
      if char.isDigit then
        let next := 10 * value + (char.toNat - '0'.toNat)
        if next ≤ limit then readDigits limit beyond rest next else throw beyond
      else throw .invalidDigit

/-- A 64-bit integer with an optional sign. -/
def readInteger : List Char → Except IntegerError Int64
  | [] => throw .empty
  | ['+'] => throw .invalidDigit
  | ['-'] => throw .invalidDigit
  | '-' :: digits => do
      return Int64.ofInt
        (-(← readDigits 0x8000000000000000 .tooSmall digits 0 : Nat))
  | '+' :: digits => do
      return Int64.ofInt
        (← readDigits 0x7FFFFFFFFFFFFFFF .tooLarge digits 0 : Nat)
  | digits => do
      return Int64.ofInt
        (← readDigits 0x7FFFFFFFFFFFFFFF .tooLarge digits 0 : Nat)

/-- One bound of an extent. -/
def readBound (side : String) (text : List Char) : Except Failure Int64 :=
  match readInteger (trim text) with
  | .ok value => return value
  | .error error =>
      throw ⟨"extent " ++ side ++ " bound `" ++ String.ofList text ++ "`",
        some error.message⟩

/-- The bounds of an extent, of which the lower one is not above the upper
one. -/
def readExtent (text : String) : Except Failure (Int64 × Int64) :=
  match splitOnce? ['.', '.'] text.toList with
  | none => throw ⟨s!"extent `{text}` is not of the form LO..HI", none⟩
  | some (lower, upper) => do
      let lower ← readBound "lower" lower
      let upper ← readBound "upper" upper
      if upper < lower then throw ⟨s!"extent `{text}` is empty", none⟩
      return (lower, upper)

/-- The result of reading a text, or a failure with a context. -/
def readIn {α : Type} (context : String) : Except ReadError α → Except Failure α
  | .ok value => return value
  | .error error => throw ⟨context, some error.message⟩

/-- A name with the expression of its value. -/
def readBinding (text : String) : Except Failure (Name × Expr) :=
  match splitOnce? ['='] text.toList with
  | none => throw ⟨s!"binding `{text}` is not of the form NAME=EXPR", none⟩
  | some (name, value) => do
      let name := String.ofList (trim name)
      if name.isEmpty then throw ⟨s!"binding `{text}` has no name", none⟩
      let expr ← readIn s!"parsing value of `{name}`"
        (Expr.read (String.ofList value))
      return (name, expr)

end CommandLine

end RecursiveQuery
