import RecursiveQuery.CommandLine.Execute

/-!
# Entry points

`main` performs commands; `checkMain` only checks the syntax of a program.
-/

namespace RecursiveQuery

namespace CommandLine

/-- The reason that the system gives for an unreadable file. -/
def FileError.ofSystem : IO.Error → FileError
  | .noFileOrDirectory .. => .missing
  | .inappropriateType _ code details =>
      if code = 20 then .notDirectory
      else if code = 21 then .isDirectory
      else .other details
  | .userError _ => .other "stream did not contain valid UTF-8"
  | error => .other (toString error)

/-- Read a file of the system. -/
def systemFiles : FileReader IO := fun path => do
  try
    return .ok (← IO.FS.readFile path)
  catch error =>
    return .error (FileError.ofSystem error)

/-- Print a report and give its exit status. -/
def deliver (report : Report) : IO UInt32 := do
  IO.print report.output
  IO.eprint report.errors
  return report.exit.toUInt32

/-- Check the syntax of the program in a file. -/
def checkMain (arguments : List String) : IO UInt32 := do
  deliver (← check systemFiles arguments)

end CommandLine

end RecursiveQuery

def main (arguments : List String) : IO UInt32 := do
  RecursiveQuery.CommandLine.deliver
    (← RecursiveQuery.CommandLine.execute RecursiveQuery.CommandLine.systemFiles
      arguments)
