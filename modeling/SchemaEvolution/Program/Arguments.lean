import SchemaEvolution.Format

/-!
# Command lines

What the arguments of the program ask for: a command with its files, and options that may
stand before or after the command.
-/

namespace SchemaEvolution.Program

inductive Command where
  | parse (input : String)
  | detect (input : String)
  | ddl (input : String)
  | diff (before after : String)
  | migrate (before after : String)
  | apply (schema operations : String)
  deriving DecidableEq, Repr

structure Options where
  format : Format
  output : Option String
  pretty : Bool

/-- What a command line asks for. -/
inductive Request where
  | run (options : Options) (command : Command)
  | version
  | usage

/-- The options given on one side of the command. -/
structure Given where
  format : Option Format
  output : Option String
  pretty : Bool

def Given.none : Given := ⟨.none, .none, false⟩

/-- One argument of a command line. -/
inductive Argument where
  | format (name : String)
  | output (path : String)
  | pretty
  | version
  | positional (text : String)

def isOption (arg : String) : Bool :=
  match arg.toList with
  | '-' :: _ :: _ => true
  | _ => false

/-- The value of an option that takes one: attached to it, or the next argument. -/
def optionValue (make : String → Argument) (attached : Option String) (rest : List String) :
    Option (Argument × List String) :=
  match attached, rest with
  | some value, rest => some (make value, rest)
  | none, value :: rest => if isOption value then none else some (make value, rest)
  | none, [] => none

def splitLong (text : List Char) : String × Option String :=
  let name := String.ofList (text.takeWhile (· != '='))
  match text.dropWhile (· != '=') with
  | _ :: value => (name, some (String.ofList value))
  | [] => (name, none)

/-- The value attached to a short option, with or without an equals sign. -/
def attachedValue : List Char → Option String
  | [] => none
  | '=' :: value => some (String.ofList value)
  | value => some (String.ofList value)

/-- The next argument of a command line, and the rest. -/
def nextArgument : List String → Option (Argument × List String)
  | [] => none
  | arg :: rest =>
    match arg.toList with
    | '-' :: '-' :: long =>
      match splitLong long with
      | ("format", value) => optionValue .format value rest
      | ("output", value) => optionValue .output value rest
      | ("pretty", .none) => some (.pretty, rest)
      | ("version", .none) => some (.version, rest)
      | _ => none
    | '-' :: 'f' :: value => optionValue .format (attachedValue value) rest
    | '-' :: 'o' :: value => optionValue .output (attachedValue value) rest
    | '-' :: 'V' :: _ => some (.version, rest)
    | '-' :: _ :: _ => none
    | _ => some (.positional arg, rest)

/-- Adds an option; none may be given twice on one side of the command. -/
def Given.add (given : Given) : Argument → Option Given
  | .format name =>
    match given.format, Format.ofName? name with
    | .none, some format => some { given with format }
    | _, _ => .none
  | .output path =>
    if given.output.isSome || path.isEmpty then .none else some { given with output := path }
  | .pretty => if given.pretty then .none else some { given with pretty := true }
  | _ => .none

/-- Options given after the command win over those before it. -/
def Given.options (before after : Given) : Options where
  format := (after.format.or before.format).getD .auto
  output := after.output.or before.output
  pretty := before.pretty || after.pretty

def Command.ofArguments? : List String → Option Command
  | ["parse", input] => some (.parse input)
  | ["detect", input] => some (.detect input)
  | ["ddl", input] => some (.ddl input)
  | ["diff", before, after] => some (.diff before after)
  | ["migrate", before, after] => some (.migrate before after)
  | ["apply", schema, operations] => some (.apply schema operations)
  | _ => none

/-- Reads the arguments after the command: options and files, and only files after two hyphens. -/
def readFiles : Nat → Given → List String → List String → Option (Given × List String)
  | 0, _, _, _ => none
  | _ + 1, given, files, [] => some (given, files.reverse)
  | fuel + 1, given, files, "--" :: rest => readFiles fuel given (rest.reverse ++ files) []
  | fuel + 1, given, files, args => do
    match ← nextArgument args with
    | (.positional file, rest) => readFiles fuel given (file :: files) rest
    | (option, rest) => readFiles fuel (← given.add option) files rest

/-- Reads the options before the command, then the command. -/
def readCommand : Nat → Given → List String → Request
  | 0, _, _ => .usage
  | fuel + 1, given, args =>
    match nextArgument args with
    | some (.positional name, rest) =>
      match readFiles (rest.length + 2) .none [] rest with
      | some (after, files) =>
        if files.any String.isEmpty then .usage
        else
          match Command.ofArguments? (name :: files) with
          | some command => .run (given.options after) command
          | none => .usage
      | none => .usage
    | some (.version, _) => .version
    | some (option, rest) =>
      match given.add option with
      | some given => readCommand fuel given rest
      | none => .usage
    | none => .usage

def Request.ofArguments (args : List String) : Request :=
  readCommand (args.length + 1) .none args

def Command.inputs : Command → List String
  | .parse input | .detect input | .ddl input => [input]
  | .diff before after | .migrate before after => [before, after]
  | .apply schema operations => [schema, operations]

end SchemaEvolution.Program
