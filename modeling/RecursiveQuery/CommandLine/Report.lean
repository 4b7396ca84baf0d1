/-!
# Reports

What a command leaves behind: its exit status and the texts of its two output
streams.
-/

namespace RecursiveQuery

namespace CommandLine

/-- An exit status and the texts of the output and the error stream. -/
structure Report where
  exit : Nat
  output : String
  errors : String

/-- Why a command failed: what it was doing, and the cause if there is one. -/
structure Failure where
  context : String
  cause : Option String

/-- The text of a failure.  Further lines of a cause are indented like its first
one. -/
def Failure.render (failure : Failure) : String :=
  match failure.cause with
  | none => "Error: " ++ failure.context ++ "\n"
  | some cause =>
      let indented := cause.toList.flatMap fun char =>
        if char = '\n' then "\n    ".toList else [char]
      "Error: " ++ failure.context ++ "\n\nCaused by:\n    " ++
        String.ofList indented ++ "\n"

namespace Report

/-- The command did its work. -/
def success (output errors : String) : Report :=
  ⟨0, output, errors⟩

/-- The command started and failed. -/
def failed (failure : Failure) : Report :=
  ⟨1, "", failure.render⟩

/-- The command could not be started. -/
def misuse (reason : String) : Report :=
  ⟨2, "", reason⟩

end Report

/-- The value of a field of a JSON report. -/
inductive FieldValue where
  | truth (value : Bool)
  | text (value : String)

/-- A character of a JSON string: quotes, backslashes and control characters
are escaped, all others stand for themselves. -/
def jsonChar (char : Char) : List Char :=
  match char with
  | '"' => ['\\', '"']
  | '\\' => ['\\', '\\']
  | '\x08' => ['\\', 'b']
  | '\x0C' => ['\\', 'f']
  | '\n' => ['\\', 'n']
  | '\r' => ['\\', 'r']
  | '\t' => ['\\', 't']
  | other =>
      if other.toNat < 0x20 then
        "\\u00".toList ++
          (if other.toNat < 0x10 then ['0'] else []) ++
          Nat.toDigits 16 other.toNat
      else [other]

/-- A text as a JSON string. -/
def jsonString (text : String) : String :=
  String.ofList ('"' :: (text.toList.flatMap jsonChar ++ ['"']))

/-- The JSON text of a field's value. -/
def FieldValue.render : FieldValue → String
  | truth true => "true"
  | truth false => "false"
  | text value => jsonString value

/-- A JSON object with one field a line, indented by two blanks. -/
def jsonObject (fields : List (String × FieldValue)) : String :=
  let lines := fields.map fun (name, value) =>
    "  " ++ jsonString name ++ ": " ++ value.render
  "\x7b\n" ++ String.intercalate ",\n" lines ++ "\n\x7d\n"

end CommandLine

end RecursiveQuery
