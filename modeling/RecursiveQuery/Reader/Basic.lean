/-!
# Readers

A reader consumes the front of a text.  A mismatch lets another alternative
try the same text; a fatal reply ends the whole reading.  Both carry the rest
of the text at the place where reading stopped.
-/

namespace RecursiveQuery

inductive Reply (α : Type) where
  | ok (value : α) (rest : List Char)
  | mismatch (position : List Char)
  | fatal (position : List Char)

def Reader (α : Type) : Type :=
  List Char → Reply α

namespace Reader

variable {α β : Type}

protected def pure (value : α) : Reader α := fun text =>
  .ok value text

protected def bind (first : Reader α) (next : α → Reader β) :
    Reader β := fun text =>
  match first text with
  | .ok value rest => next value rest
  | .mismatch position => .mismatch position
  | .fatal position => .fatal position

instance : Monad Reader where
  pure := Reader.pure
  bind := Reader.bind

/-- The reader that accepts nothing. -/
def refuse : Reader α := fun text =>
  .mismatch text

/-- Try a second reader where the first one mismatches. -/
def or (first second : Reader α) : Reader α := fun text =>
  match first text with
  | .mismatch _ => second text
  | reply => reply

/-- Try several readers in order; the mismatch of the last one is reported. -/
def choice : List (Reader α) → Reader α
  | [] => refuse
  | [last] => last
  | first :: rest => or first (choice rest)

/-- A reader that may be absent. -/
def optional (item : Reader α) : Reader (Option α) := fun text =>
  match item text with
  | .ok value rest => .ok (some value) rest
  | .mismatch _ => .ok none text
  | .fatal position => .fatal position

/-- Repeat a reader at most `limit` times, until it mismatches. -/
def manyUpTo (item : Reader α) : Nat → Reader (List α)
  | 0 => Reader.pure []
  | limit + 1 => fun text =>
      match item text with
      | .ok value rest =>
          match manyUpTo item limit rest with
          | .ok values rest => .ok (value :: values) rest
          | .mismatch position => .mismatch position
          | .fatal position => .fatal position
      | .mismatch _ => .ok [] text
      | .fatal position => .fatal position

/-- Repeat a reader until it mismatches.  An item consumes at least one
character, so the length of the text bounds the repetitions. -/
def many (item : Reader α) : Reader (List α) := fun text =>
  manyUpTo item text.length text

/-- Items with separators between them, at least one; a separator that no item
follows is left unread. -/
def separated (separator : Reader Unit) (item : Reader α) :
    Reader (List α) := do
  let first ← item
  let rest ← many (do separator; item)
  return first :: rest

/-- Items with separators between them, possibly none. -/
def separatedOrNone (separator : Reader Unit) (item : Reader α) :
    Reader (List α) :=
  or (separated separator item) (Reader.pure [])

end Reader

end RecursiveQuery
