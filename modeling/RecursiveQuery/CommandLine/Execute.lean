import RecursiveQuery.CommandLine.FileTree
import RecursiveQuery.CommandLine.Values
import RecursiveQuery.Digest
import RecursiveQuery.Evaluation.Load
import RecursiveQuery.Inversion.QueryPlan
import RecursiveQuery.Inversion.SettingsReader

/-!
# Execution of commands

`invert` shows the plan of a query or why it has none; `run` evaluates the plan
or, without one, the query as written.  How files are read is a parameter, so
that the commands themselves are pure.
-/

namespace RecursiveQuery

namespace CommandLine

/-- What the operands and the configuration of a command amount to. -/
structure Task where
  program : Program
  query : Expr
  settings : Settings

section Files

variable {m : Type → Type} [Monad m]

/-- How a file is read: its text, or the reason why it cannot be read. -/
abbrev FileReader (m : Type → Type) := String → m (Except FileError String)

/-- The text of a file that the command needs. -/
def readFile (files : FileReader m) (path : String) :
    ExceptT Failure m String := do
  match ← files path with
  | .ok text => return text
  | .error error => throw ⟨s!"reading {path}", some error.message⟩

/-- The settings of a configuration file, or the standard ones. -/
def readSettings (files : FileReader m) :
    Option String → ExceptT Failure m Settings
  | none => return {}
  | some path => do
      match Settings.read? (← readFile files path) with
      | some settings => return settings
      | none => throw ⟨s!"parsing {path}", some "invalid settings"⟩

/-- Read the program, then the query, then the settings. -/
def prepare (files : FileReader m) (request : Request) :
    ExceptT Failure m Task := do
  let text ← readFile files request.file
  let file := request.file
  let program ← readIn s!"parsing {file}" (Program.read text)
  let query ← readIn "parsing query" (Expr.read request.query)
  let settings ← readSettings files request.config
  return ⟨program, query, settings⟩

end Files

/-- The plan of a task. -/
def Task.plan (task : Task) : Except Refusal Expr :=
  (PredicateInverter.ofProgram task.program task.settings).plan task.query

/-- The report of the plan of a task. -/
def reportPlan (task : Task) (json : Bool) : Report :=
  match task.plan with
  | .ok plan =>
      if json then
        .success (jsonObject
          [("invertible", .truth true), ("plan_digest", .text plan.digest),
            ("query", .text plan.print)]) ""
      else .success ("inverted " ++ plan.print ++ "\n") ""
  | .error refusal =>
      if json then
        .success (jsonObject
          [("invertible", .truth false), ("reason", .text refusal.message)]) ""
      else .success ("not invertible: " ++ refusal.message ++ "\n") ""

/-- The value of an evaluation, or a failure with a context. -/
def evaluateIn {α : Type} (context : String) : Outcome α → Except Failure α
  | .ok value => return value
  | .error (.error cause) => throw ⟨context, some cause.message⟩
  | .error .outOfRounds => throw ⟨context, some "no fixpoint was reached"⟩

/-- Supply values for names, each of them computed with the ones before it. -/
def supply (session : Session) : List (String × Nat) → Except Failure Session
  | [] => return session
  | (binding, number) :: bindings => do
      let (name, expr) ← readBinding binding
      let value ← evaluateIn s!"evaluating --bind {name}"
        (session.eval (Session.root number) expr)
      supply (session.bind name value) bindings

/-- The limits of an evaluation with a given extent. -/
def readLimits : Option String → Except Failure Limits
  | none => return {}
  | some text => do
      let (lower, upper) ← readExtent text
      return { extent := some (Limits.integers lower upper) }

/-- Evaluate a task and report the value. -/
def reportValue (task : Task) (json asWritten : Bool) (extent : Option String)
    (bindings : List String) : Except Failure Report := do
  let limits ← readLimits extent
  let session ← evaluateIn "loading program" (Session.load task.program limits)
  let session ← supply session bindings.zipIdx
  let (plan, inverted) :=
    if asWritten then (task.query, false)
    else
      match task.plan with
      | .ok plan => (plan, true)
      | .error _ => (task.query, false)
  let value ← evaluateIn ("evaluating `" ++ plan.print ++ "`")
    (session.eval (Session.root bindings.length) plan)
  if json then
    return .success (jsonObject
      [("inverted", .truth inverted), ("plan", .text plan.print),
        ("plan_digest", .text plan.digest), ("result", .text value.print)]) ""
  else
    return .success (value.print ++ "\n")
      (if inverted then "plan " ++ plan.print ++ "\n" else "")

section Files

variable {m : Type → Type} [Monad m]

/-- Perform a command. -/
def perform (files : FileReader m) : Command → ExceptT Failure m Report
  | .invert request => do
      return reportPlan (← prepare files request) request.json
  | .run request asWritten extent bindings => do
      reportValue (← prepare files request) request.json asWritten extent
        bindings

/-- How commands are written. -/
def usage : String :=
  "usage: fixq [-v] (invert | run) FILE QUERY [--config PATH] [--json] " ++
    "[--no-invert] [--extent LO..HI] [--bind NAME=EXPR]\n"

/-- Do what the arguments ask for. -/
def execute (files : FileReader m) (arguments : List String) : m Report := do
  match Invocation.ofArguments arguments with
  | .help => return .success usage ""
  | .version => return .success "fixq 0.1.0\n" ""
  | .misuse => return .misuse usage
  | .perform command =>
      match ← (perform files command).run with
      | .ok report => return report
      | .error failure => return .failed failure

/-- Check the program in a file and count its declarations. -/
def check (files : FileReader m) : List String → m Report
  | [path] => do
      match ← files path with
      | .error error =>
          let reason := error.message
          return .misuse s!"failed to read `{path}`: {reason}\n"
      | .ok text =>
          match Program.read text with
          | .error error => return ⟨1, "", error.message ++ "\n"⟩
          | .ok program =>
              let total := program.decls.length
              let functions := program.decls.countP Decl.isFunction
              let values := total - functions
              return .success
                s!"ok: decls={total} funs={functions} vals={values}\n" ""
  | _ => return .misuse "usage: fixq_parse <file.fq>\n"

end Files

end CommandLine

end RecursiveQuery
