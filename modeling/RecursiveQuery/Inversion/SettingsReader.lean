import RecursiveQuery.Inversion.Settings
import RecursiveQuery.Reader.Token

/-!
# Reading settings

Settings are written as a JSON object, or as an array of the field values in
order.  Missing fields keep their defaults and unknown fields are skipped,
whereas a repeated field or a value of the wrong kind is refused.
-/

namespace RecursiveQuery

namespace SettingsReader

open Reader

def blanks : Reader Unit := fun text =>
  .ok () (text.dropWhile fun char =>
    char == ' ' || char == '\n' || char == '\t' || char == '\r')

/-- A symbol behind blanks. -/
def mark (char : Char) : Reader Unit := do
  blanks
  exactly [char]

/-- One character with a property. -/
def satisfying (test : Char → Bool) : Reader Char := fun text =>
  match text with
  | [] => .mismatch []
  | char :: rest =>
      if test char then .ok char rest else .mismatch (char :: rest)

def hexValue? (char : Char) : Option Nat :=
  if '0' ≤ char && char ≤ '9' then some (char.toNat - '0'.toNat)
  else if 'a' ≤ char && char ≤ 'f' then some (char.toNat - 'a'.toNat + 10)
  else if 'A' ≤ char && char ≤ 'F' then some (char.toNat - 'A'.toNat + 10)
  else none

def hexDigit : Reader Nat := do
  match hexValue? (← satisfying fun char => (hexValue? char).isSome) with
  | some value => return value
  | none => refuse

/-- A code unit of four hexadecimal digits. -/
def codeUnit : Reader Nat := do
  let first ← hexDigit
  let second ← hexDigit
  let third ← hexDigit
  let fourth ← hexDigit
  return ((first * 16 + second) * 16 + third) * 16 + fourth

/-- The character of an escaped code unit.  A unit of a surrogate pair needs
its partner, except in a text that is skipped. -/
def escapedUnit (skipping : Bool) : Reader Char := do
  let unit ← codeUnit
  if 0xD800 ≤ unit && unit ≤ 0xDFFF then
    if skipping then return '\uFFFD'
    else if unit ≤ 0xDBFF then
      exactly ['\\', 'u']
      let low ← codeUnit
      if 0xDC00 ≤ low && low ≤ 0xDFFF then
        return Char.ofNat (0x10000 + (unit - 0xD800) * 0x400 + (low - 0xDC00))
      else refuse
    else refuse
  else return Char.ofNat unit

def escaped (skipping : Bool) : Reader Char := do
  exactly ['\\']
  match ← satisfying fun _ => true with
  | '"' => return '"'
  | '\\' => return '\\'
  | '/' => return '/'
  | 'b' => return '\x08'
  | 'f' => return '\x0C'
  | 'n' => return '\n'
  | 'r' => return '\r'
  | 't' => return '\t'
  | 'u' => escapedUnit skipping
  | _ => refuse

def quoted (skipping : Bool) : Reader String := do
  mark '"'
  let chars ← many (or (escaped skipping)
    (satisfying fun char => char != '"' && char != '\\' && char.toNat ≥ 0x20))
  exactly ['"']
  return String.ofList chars

/-- Digits without a superfluous zero in front. -/
def digits : Reader (List Char) := do
  let first ← satisfying Char.isDigit
  if first == '0' then
    notBefore Char.isDigit
    return [first]
  else
    let rest ← many (satisfying Char.isDigit)
    return first :: rest

def digitsAnyZeros : Reader Unit := do
  let _ ← satisfying Char.isDigit
  let _ ← many (satisfying Char.isDigit)

/-- Any number. -/
def number : Reader Unit := do
  blanks
  let _ ← optional (exactly ['-'])
  let _ ← digits
  let fraction ← optional (exactly ['.'])
  if fraction.isSome then digitsAnyZeros
  let exponent ← optional (satisfying fun char => char == 'e' || char == 'E')
  if exponent.isSome then
    let _ ← optional (satisfying fun char => char == '+' || char == '-')
    digitsAnyZeros

/-- A bare word such as `null`. -/
def bare (word : String) : Reader Unit := do
  blanks
  exactly word.toList

/-- Items behind an opening mark, up to the closing one. -/
def listed {α : Type} (opening closing : Char) (item : Reader α) :
    Reader (List α) := do
  mark opening
  let items ← separatedOrNone (mark ',') item
  mark closing
  return items

/-- A key with the value behind its colon. -/
def entry {α : Type} (skipping : Bool) (value : String → Reader α) :
    Reader α := do
  let key ← quoted skipping
  mark ':'
  value key

/-- Any value, nested in at most so many arrays and objects. -/
def anyWithin : Nat → Reader Unit
  | 0 => refuse
  | nesting + 1 =>
      choice [
        bare "null",
        bare "true",
        bare "false",
        number,
        (do let _ ← quoted true),
        (do let _ ← listed '[' ']' (anyWithin nesting)),
        (do let _ ← listed '{' '}' (entry true fun _ => anyWithin nesting))]

/-- Any value. -/
def any : Reader Unit := fun text =>
  anyWithin (text.length + 1) text

def truth : Reader Bool :=
  or (do bare "true"; return true) (do bare "false"; return false)

/-- A whole number below 2^64. -/
def count : Reader Nat := do
  blanks
  let digits ← digits
  notBefore fun char => char == '.' || char == 'e' || char == 'E'
  if decimal digits < 0x10000000000000000 then return decimal digits else refuse

/-- One of some named values, as a string or as the key of a null entry. -/
def named {α : Type} (values : List (String × α)) : Reader α := do
  let name ← or (quoted false) (do
    mark '{'
    let name ← quoted false
    mark ':'
    bare "null"
    mark '}'
    return name)
  match values.lookup name with
  | some value => return value
  | none => refuse

def policy : Reader DisjunctionPolicy :=
  named [(DisjunctionPolicy.firstArmBase.name, .firstArmBase),
    (DisjunctionPolicy.binaryOnly.name, .binaryOnly)]

def joinSource : Reader JoinSource :=
  named [(JoinSource.stepRelation.name, .stepRelation),
    (JoinSource.accumulated.name, .accumulated)]

/-- The change of the settings that a field with its value asks for. -/
abbrev Change := Settings → Settings

/-- The fields in order, each with the reader of its values. -/
def fields : List (String × Reader Change) :=
  [("enabled", do
      let value ← truth
      return fun settings => { settings with enabled := value }),
    ("disjunction_policy", do
      let value ← policy
      return fun settings => { settings with disjunctionPolicy := value }),
    ("join_source", do
      let value ← joinSource
      return fun settings => { settings with joinSource := value }),
    ("max_step_cases", do
      let value ← count
      return fun settings => { settings with maxStepCases := value })]

/-- A field of an object: its change if it is known. -/
def field : Reader (Option (String × Change)) :=
  entry false fun key =>
    match fields.lookup key with
    | some value => do return some (key, ← value)
    | none => do any; return none

def object : Reader (List Change) := do
  let entries ← listed '{' '}' field
  let known := entries.filterMap id
  if (known.map Prod.fst).Nodup then return known.map Prod.snd else refuse

/-- At least one value of the fields in order; the last ones may be missing. -/
def valuesFrom : List (Reader Change) → Reader (List Change)
  | [] => refuse
  | value :: later => do
      let change ← value
      match ← optional (mark ',') with
      | none => return [change]
      | some () => return change :: (← valuesFrom later)

def array : Reader (List Change) := do
  mark '['
  let changes ← or (valuesFrom (fields.map Prod.snd)) (return [])
  mark ']'
  return changes

def settings : Reader Settings := do
  let changes ← or object array
  blanks
  return changes.foldl (fun settings change => change settings) {}

end SettingsReader

/-- Read settings; nothing but blanks may follow them. -/
def Settings.read? (text : String) : Option Settings :=
  match SettingsReader.settings text.toList with
  | .ok settings [] => some settings
  | _ => none

end RecursiveQuery
