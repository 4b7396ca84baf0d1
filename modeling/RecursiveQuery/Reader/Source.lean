import RecursiveQuery.Reader.Grammar

/-!
# Reading source text

The readers of whole texts.  Programs and expressions are refused at once when
a comment has no end; a failure names the place where it was met and shows the
text that stands there.
-/

namespace RecursiveQuery

/-- A place in a text; lines and columns count from one, columns in
characters. -/
structure Position where
  line : Nat
  column : Nat
deriving DecidableEq

/-- The place of a suffix of a text. -/
def Position.ofSuffix (text suffix : List Char) : Position :=
  let before := text.take (text.length - suffix.length)
  { line := before.count '\n' + 1
    column := (before.reverse.takeWhile (· != '\n')).length + 1 }

/-- What kind of text is read. -/
inductive SourceKind where
  | program
  | expr
  | pattern
  | type
deriving DecidableEq

/-- What is wrong at the place of a failure. -/
inductive ReadProblem where
  | invalid (kind : SourceKind)
  | invalidTrailing
  | leftover (kind : SourceKind)
deriving DecidableEq

inductive ReadError where
  | problem (position : Position) (problem : ReadProblem) (found : String)
  | unclosedComment (line : Nat)
deriving DecidableEq

namespace ReadProblem

def message : ReadProblem → String
  | invalid .program => "invalid declaration"
  | invalid .expr => "invalid expression"
  | invalid .pattern => "invalid pattern"
  | invalid .type => "invalid type"
  | invalidTrailing => "invalid trailing input"
  | leftover .program => "expected `val` or `fun` declaration"
  | leftover .expr => "unexpected input after expression"
  | leftover .pattern => "unexpected input after pattern"
  | leftover .type => "unexpected input after type"

end ReadProblem

namespace ReadError

/-- A problem at a suffix of a text, with the first 16 characters found. -/
def atSuffix (text suffix : List Char) (cause : ReadProblem) : ReadError :=
  .problem (.ofSuffix text suffix) cause (String.ofList (suffix.take 16))

def message : ReadError → String
  | problem ⟨line, column⟩ cause found =>
      let reason := cause.message
      s!"parse error at line {line}, column {column}: " ++
        s!"{reason} (found `{found}`)"
  | unclosedComment line => s!"unterminated comment starting at line {line}"

end ReadError

namespace Reader

variable {α : Type}

/-- Read a whole text: nothing but blanks and comments may be left over. -/
def whole (kind : SourceKind) (reader : Reader α) (text : List Char) :
    Except ReadError α :=
  match reader text with
  | .mismatch position | .fatal position =>
      .error (.atSuffix text position (.invalid kind))
  | .ok value rest =>
      match skip rest with
      | .mismatch position | .fatal position =>
          .error (.atSuffix text position .invalidTrailing)
      | .ok () [] => .ok value
      | .ok () left => .error (.atSuffix text left (.leftover kind))

/-- Read a whole text in which every comment is closed. -/
def wholeClosed (kind : SourceKind) (reader : Reader α) (text : List Char) :
    Except ReadError α :=
  match unclosedComment? text with
  | some suffix =>
      .error (.unclosedComment (Position.ofSuffix text suffix).line)
  | none => whole kind reader text

end Reader

def Program.read (text : String) : Except ReadError Program := do
  let decls ← Reader.wholeClosed .program (Reader.many Reader.decl) text.toList
  return ⟨decls⟩

def Expr.read (text : String) : Except ReadError Expr :=
  Reader.wholeClosed .expr Reader.expr text.toList

def Pattern.read (text : String) : Except ReadError Pattern :=
  Reader.whole .pattern Reader.pattern text.toList

def Ty.read (text : String) : Except ReadError Ty :=
  Reader.whole .type Reader.type text.toList

end RecursiveQuery
