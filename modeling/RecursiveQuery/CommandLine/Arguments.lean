/-!
# Command-line arguments

A command has two operands, the program file and the query, and options that
may stand anywhere behind the command's name.  An option's value follows it as
an argument of its own or behind an equality sign; `--` ends the options.
-/

namespace RecursiveQuery

namespace CommandLine

/-- What both commands are told: where the program is, the query, where the
settings are, and whether the answer is a JSON object. -/
structure Request where
  file : String
  query : String
  config : Option String
  json : Bool

/-- A run can be told to evaluate the query as written, the integers that
unbounded scans range over, and values for names. -/
inductive Command where
  | invert (request : Request)
  | run (request : Request) (asWritten : Bool) (extent : Option String)
      (bindings : List String)

/-- What the arguments ask for. -/
inductive Invocation where
  | perform (command : Command)
  | help
  | version
  | misuse

/-- The options and operands met so far. -/
structure Options where
  operands : List String := []
  config : Option String := none
  json : Bool := false
  asWritten : Bool := false
  extent : Option String := none
  bindings : List String := []

/-- Why reading arguments ends early. -/
inductive Stop where
  | help
  | version
  | misuse

/-- The parts of a text before and behind the first occurrence of a
separator. -/
def splitOnce? (separator : List Char) :
    List Char → Option (List Char × List Char)
  | [] => if separator.isEmpty then some ([], []) else none
  | char :: rest =>
      if separator.isPrefixOf (char :: rest) then
        some ([], (char :: rest).drop separator.length)
      else (splitOnce? separator rest).map fun (before, after) =>
        (char :: before, after)

/-- Whether an argument is written like an option. -/
def looksLikeOption (argument : String) : Bool :=
  match argument.toList with
  | '-' :: _ :: _ => true
  | _ => false

/-- The flags behind a single dash: `v` any number of times, and the requests
for help and version, of which the first one met decides. -/
def shortFlags (allowVersion : Bool) : List Char → Except Stop Unit
  | [] => return ()
  | 'v' :: rest => shortFlags allowVersion rest
  | 'h' :: _ => throw .help
  | 'V' :: _ => if allowVersion then throw .version else throw .misuse
  | _ :: _ => throw .misuse

namespace Options

/-- The options that take a value. -/
inductive Valued where
  | config
  | extent
  | binding

/-- The option that a long name stands for; extents and bindings are for runs
only. -/
def valued? (isRun : Bool) : String → Option Valued
  | "config" => some .config
  | "extent" => if isRun then some .extent else none
  | "bind" => if isRun then some .binding else none
  | _ => none

/-- Give an option its value.  Only bindings can be repeated, and a path is not
empty. -/
def setValue (options : Options) (option : Valued) (value : String) :
    Except Stop Options :=
  match option with
  | .config =>
      if options.config.isSome || value.isEmpty then throw .misuse
      else return { options with config := some value }
  | .extent =>
      if options.extent.isSome then throw .misuse
      else return { options with extent := some value }
  | .binding => return { options with bindings := options.bindings ++ [value] }

/-- Set a flag that is given by its long name. -/
def setFlag (options : Options) (isRun : Bool) : String → Except Stop Options
  | "verbose" => return options
  | "help" => throw .help
  | "json" =>
      if options.json then throw .misuse else
        return { options with json := true }
  | "no-invert" =>
      if !isRun || options.asWritten then throw .misuse
      else return { options with asWritten := true }
  | _ => throw .misuse

/-- Take an operand: the file, which has a name, then the query. -/
def addOperand (options : Options) (operand : String) : Except Stop Options :=
  match options.operands with
  | [] =>
      if operand.isEmpty then throw .misuse else
        return { options with operands := [operand] }
  | [file] => return { options with operands := [file, operand] }
  | _ => throw .misuse

/-- Read the arguments of a command. -/
def read (isRun : Bool) : List String → Options → Except Stop Options
  | [], options => return options
  | argument :: arguments, options =>
      match argument.toList with
      | ['-', '-'] => arguments.foldlM addOperand options
      | '-' :: '-' :: long =>
          match splitOnce? ['='] long with
          | some (name, value) =>
              match valued? isRun (String.ofList name) with
              | some option => do
                  read isRun arguments
                    (← options.setValue option (String.ofList value))
              | none => throw .misuse
          | none =>
              match valued? isRun (String.ofList long), arguments with
              | some option, value :: arguments =>
                  if looksLikeOption value then throw .misuse
                  else do read isRun arguments (← options.setValue option value)
              | some _, [] => throw .misuse
              | none, arguments => do
                  read isRun arguments
                    (← options.setFlag isRun (String.ofList long))
      | '-' :: char :: short => do
          shortFlags false (char :: short)
          read isRun arguments options
      | _ => do read isRun arguments (← options.addOperand argument)

end Options

/-- Read the arguments behind the name of a command. -/
def readCommand (isRun : Bool) (arguments : List String) :
    Except Stop Command := do
  let options ← Options.read isRun arguments {}
  match options.operands with
  | [file, query] =>
      let request : Request := ⟨file, query, options.config, options.json⟩
      if isRun then
        return .run request options.asWritten options.extent options.bindings
      else return .invert request
  | _ => throw .misuse

/-- Read all arguments: flags, the name of a command, and what follows it. -/
def readArguments : List String → Except Stop Command
  | [] => throw .misuse
  | "invert" :: arguments => readCommand false arguments
  | "run" :: arguments => readCommand true arguments
  | "--verbose" :: arguments => readArguments arguments
  | "--help" :: _ => throw .help
  | "--version" :: _ => throw .version
  | ["help"] => throw .help
  | ["help", topic] =>
      if ["invert", "run", "help"].contains topic then throw .help else
        throw .misuse
  | argument :: arguments =>
      match argument.toList with
      | '-' :: '-' :: _ => throw .misuse
      | '-' :: char :: short => do
          shortFlags true (char :: short)
          readArguments arguments
      | _ => throw .misuse

/-- What a list of arguments asks for. -/
def Invocation.ofArguments (arguments : List String) : Invocation :=
  match readArguments arguments with
  | .ok command => .perform command
  | .error .help => .help
  | .error .version => .version
  | .error .misuse => .misuse

end CommandLine

end RecursiveQuery
