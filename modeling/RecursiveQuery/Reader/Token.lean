import RecursiveQuery.Literal
import RecursiveQuery.Name
import RecursiveQuery.Reader.Blank

/-!
# Tokens

Symbols, keywords, identifiers and literals.  Every token skips the blanks in
front of it, and a mismatch is reported behind those blanks.
-/

namespace RecursiveQuery

def isWordStart (char : Char) : Bool :=
  char.isAlpha || char == '_'

def isWordRest (char : Char) : Bool :=
  char.isAlphanum || char == '_' || char == '\''

/-- Words that are no identifiers. -/
def keywords : List String :=
  ["_", "andalso", "elem", "exists", "false", "fn", "from", "fun", "in",
    "orelse", "true", "val", "where", "yield"]

namespace Reader

/-- The rest of a text behind some expected characters. -/
def dropExpected : (expected text : List Char) → Option (List Char)
  | [], text => some text
  | _ :: _, [] => none
  | want :: expected, char :: text =>
      if want = char then dropExpected expected text else none

/-- Exactly these characters. -/
def exactly (expected : List Char) : Reader Unit := fun text =>
  match dropExpected expected text with
  | some rest => .ok () rest
  | none => .mismatch text

/-- Succeed without reading anything unless the next character is excluded. -/
def notBefore (excluded : Char → Bool) : Reader Unit := fun text =>
  match text with
  | [] => .ok () []
  | char :: rest =>
      if excluded char then .mismatch (char :: rest) else .ok () (char :: rest)

def symbol (text : String) : Reader Unit := do
  skip
  exactly text.toList

/-- A word that no identifier character follows. -/
def keyword (word : String) : Reader Unit := do
  skip
  exactly word.toList
  notBefore isWordRest

/-- An equality sign that is not the start of an arrow. -/
def equalSign : Reader Unit := do
  skip
  exactly ['=']
  notBefore (· == '>')

/-- A word: a start character and all continuing ones. -/
def word : Reader (List Char) := fun text =>
  match text with
  | [] => .mismatch []
  | char :: rest =>
      if isWordStart char then
        .ok (char :: rest.takeWhile isWordRest) (rest.dropWhile isWordRest)
      else .mismatch (char :: rest)

/-- A word that is no keyword. -/
def identifier : Reader Name := do
  skip
  fun text =>
    match word text with
    | .ok letters rest =>
        let name := String.ofList letters
        if keywords.contains name then .mismatch text else .ok name rest
    | .mismatch position => .mismatch position
    | .fatal position => .fatal position

/-- A dot and a word, without blanks. -/
def dottedPart : Reader (List Char) := do
  exactly ['.']
  let letters ← word
  return '.' :: letters

/-- An identifier with any number of dotted parts. -/
def qualifiedIdentifier : Reader Name := do
  let first ← identifier
  let parts ← many dottedPart
  return String.ofList (first.toList ++ parts.flatten)

/-- The number that decimal digits denote. -/
def decimal (digits : List Char) : Nat :=
  digits.foldl (fun value digit => 10 * value + (digit.toNat - '0'.toNat)) 0

/-- An optional `~` and digits whose value is below 2^63. -/
def integer : Reader Int64 := do
  skip
  fun text =>
    let (negative, unsigned) :=
      match text with
      | '~' :: rest => (true, rest)
      | rest => (false, rest)
    let digits := unsigned.takeWhile Char.isDigit
    if digits.isEmpty then .mismatch unsigned
    else
      let magnitude := decimal digits
      if magnitude < 0x8000000000000000 then
        let value := if negative then -(magnitude : Int) else magnitude
        .ok (Int64.ofInt value) (unsigned.dropWhile Char.isDigit)
      else .mismatch text

/-- The characters up to the closing quote.  A text that ends before it is
fatal at `opening`, an unknown escape at its backslash. -/
def quotedRest (opening : List Char) : Reader (List Char)
  | [] => .fatal opening
  | '"' :: rest => .ok [] rest
  | '\\' :: escaped :: rest =>
      match (match escaped with
        | 'n' => some '\n'
        | 't' => some '\t'
        | '"' => some '"'
        | '\\' => some '\\'
        | _ => none) with
      | some char =>
          match quotedRest opening rest with
          | .ok chars rest => .ok (char :: chars) rest
          | .mismatch position => .mismatch position
          | .fatal position => .fatal position
      | none => .fatal ('\\' :: escaped :: rest)
  | ['\\'] => .fatal ['\\']
  | char :: rest =>
      match quotedRest opening rest with
      | .ok chars rest => .ok (char :: chars) rest
      | .mismatch position => .mismatch position
      | .fatal position => .fatal position

def string : Reader String := do
  skip
  fun text =>
    match text with
    | '"' :: rest =>
        match quotedRest text rest with
        | .ok chars rest => .ok (String.ofList chars) rest
        | .mismatch position => .mismatch position
        | .fatal position => .fatal position
    | other => .mismatch other

def literal : Reader Literal :=
  choice [
    (do return .int (← integer)),
    (do return .str (← string)),
    (do keyword "true"; return .bool true),
    (do keyword "false"; return .bool false)]

end Reader

end RecursiveQuery
