/-!
# Literals

The constants of the language with their written form: a negative integer is
marked by `~`, and a string escapes the quote, the backslash and the newline.
-/

namespace RecursiveQuery

inductive Literal where
  | unit
  | bool (value : Bool)
  | int (value : Int64)
  | str (value : String)
deriving DecidableEq

namespace Literal

/-- The characters of a string as they stand between quotes. -/
def escape : List Char → List Char
  | [] => []
  | '"' :: rest => '\\' :: '"' :: escape rest
  | '\\' :: rest => '\\' :: '\\' :: escape rest
  | '\n' :: rest => '\\' :: 'n' :: escape rest
  | char :: rest => char :: escape rest

/-- Decimal digits of an integer, behind a `~` if it is negative. -/
def integerChars (value : Int64) : List Char :=
  let digits := Nat.toDigits 10 value.toInt.natAbs
  if value.toInt < 0 then '~' :: digits else digits

def chars : Literal → List Char
  | unit => ['(', ')']
  | bool true => "true".toList
  | bool false => "false".toList
  | int value => integerChars value
  | str value => '"' :: (escape value.toList ++ ['"'])

def print (literal : Literal) : String :=
  String.ofList literal.chars

end Literal

end RecursiveQuery
